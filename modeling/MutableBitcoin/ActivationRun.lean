import MutableBitcoin.MostWorkChain

/-!
# Runs of the activation

The loop of `ActivateBestChain` from one release of the lock to the next. A block that is not valid leaves the tip
in the middle of a branch.
-/

namespace MutableBitcoin
open Lib List

namespace ChainState

variable {ctx : ChainContext} {s s' s₁ s₂ : ChainState} {a b c f t w x : Uint256} {pre rest : List Uint256}
  {l l' l₀ : LoopState} {r : Option Uint256}

section Run

/-- One iteration after which the loop goes on. -/
def Continues (ctx : ChainContext) (l l' : LoopState) : Prop :=
  iterate ctx l = .ok (.released l'.chain l'.pindexMostWork) ∧ l'.chain.tip ≠ l'.pindexMostWork

/-- Any number of iterations. -/
def LoopRun (ctx : ChainContext) : LoopState → LoopState → Prop := Relation.ReflTransGen (Continues ctx)

lemma LoopReady.iterated (h : LoopReady ctx l t) {it : Iteration} (hit : iterate ctx l = .ok it) :
    Iterated ctx l.chain t it := by
  obtain ⟨it', hit', hout⟩ := iterate_spec h
  obtain rfl := Except.ok.inj (hit.symm.trans hit')
  exact hout

lemma LoopReady.of_ready (h : Ready ctx s t) : LoopReady ctx ⟨s, none⟩ t :=
  ⟨h, fun _ hw => nomatch hw⟩

theorem LoopReady.run (h : LoopReady ctx l₀ t) (hrun : LoopRun ctx l₀ l) : ∃ t', LoopReady ctx l t' := by
  induction hrun with
  | refl => exact ⟨t, h⟩
  | tail _ hstep ih =>
    obtain ⟨t', ht'⟩ := ih
    exact (ht'.iterated hstep.1).loopReady

/-- What holds of all states of a run holds of the state it ends in. -/
theorem activateFrom_rule {P : LoopState → Prop} {fuel : ℕ} (hl : P l) (hP : ∀ l l', P l → Continues ctx l l' → P l')
    {res : Except ChainFailure ChainState} (hrun : activateFrom ctx fuel l = some res) :
    (∃ l', P l' ∧ ∃ e, iterate ctx l' = .error e ∧ res = .error e) ∨
      (∃ l' s', P l' ∧ iterate ctx l' = .ok (.idle s') ∧ res = .ok s') ∨
      ∃ l' s', P l' ∧ iterate ctx l' = .ok (.released s' s'.tip) ∧ res = .ok s' := by
  induction fuel generalizing l with
  | zero => cases hrun
  | succ fuel ih =>
    unfold activateFrom at hrun
    cases hit : iterate ctx l with
    | error e =>
      rw [hit] at hrun
      exact Or.inl ⟨l, hl, e, hit, (Option.some.inj hrun).symm⟩
    | ok it =>
      rw [hit] at hrun
      cases it with
      | idle s' => exact Or.inr (Or.inl ⟨l, s', hl, hit, (Option.some.inj hrun).symm⟩)
      | released s' w' =>
        dsimp only at hrun
        by_cases hend : s'.tip = w'
        · rw [if_pos hend] at hrun
          subst hend
          exact Or.inr (Or.inr ⟨l, s', hl, hit, (Option.some.inj hrun).symm⟩)
        · rw [if_neg hend] at hrun
          exact ih (hP l ⟨s', w'⟩ hl ⟨hit, hend⟩) hrun

lemma activateFrom_of_run {fuel : ℕ} {res : Except ChainFailure ChainState} (hrun : LoopRun ctx l₀ l)
    (hres : activateFrom ctx fuel l₀ = some res) : ∃ fuel', activateFrom ctx fuel' l = some res := by
  induction hrun with
  | refl => exact ⟨fuel, hres⟩
  | tail _ hstep ih =>
    obtain ⟨fuel', hres'⟩ := ih
    cases fuel' with
    | zero => cases hres'
    | succ fuel' =>
      refine ⟨fuel', ?_⟩
      unfold activateFrom at hres'
      rw [hstep.1] at hres'
      dsimp only at hres'
      rwa [if_neg hstep.2] at hres'

lemma activateBestChain_ok (h : Ready ctx s t) {res : Except ChainFailure ChainState}
    (hres : ActivateBestChain ctx s res) : ∃ s', res = .ok s' := by
  obtain ⟨fuel, hrun⟩ := hres
  have hkept : ∀ l l', (∃ t, LoopReady ctx l t) → Continues ctx l l' → ∃ t, LoopReady ctx l' t := by
    rintro l l' ⟨t, ht⟩ hstep
    exact (ht.iterated hstep.1).loopReady
  rcases activateFrom_rule ⟨t, LoopReady.of_ready h⟩ hkept hrun with
    ⟨l', ⟨t', ht'⟩, e, hit, -⟩ | ⟨l', s', -, -, hok⟩ | ⟨l', s', -, -, hok⟩
  · obtain ⟨it, hit', -⟩ := iterate_spec ht'
    rw [hit'] at hit
    cases hit
  · exact ⟨s', hok⟩
  · exact ⟨s', hok⟩

end Run

section Release

/-- The tip has not become worse. -/
def TipNotWorse (ctx : ChainContext) (s s' : ChainState) : Prop :=
  ∃ t t', s.tip = some t ∧ s'.tip = some t' ∧ workComparator ctx s' t' t = false

/-- On the branch of the best usable candidate, a block fails before the tip has more work than it has now,
and the block below is worse than the tip. -/
def FailsBelowTip (ctx : ChainContext) (s : ChainState) : Prop :=
  ∃ t w f pre b, s.tip = some t ∧ Target ctx s w ∧ s.findFork w = some f ∧
    pre ++ [b] <+: (s.offChain w).reverse ∧ ConnectedOnly ctx s t pre ∧ ctx.connectBlock b ≠ .valid ∧
    workComparator ctx s (pre.getLastD f) t = true

lemma Ready.findFork_eq (h : Ready ctx s t) (hw : w ∈ s.mapBlockIndex) (ha : Above s f w (s.offChain w).reverse) :
    s.findFork w = some f := by
  obtain ⟨f', hfind, -, -, hcut⟩ := h.active.findFork h.tree hw
  obtain ⟨below, hf⟩ := h.tree.head_lineage f
  obtain ⟨below', hf'⟩ := h.tree.head_lineage f'
  unfold Above at ha
  rw [reverse_reverse, hcut, hf, hf'] at ha
  rw [hfind, (List.cons.inj (append_cancel_left ha)).1]

lemma failsBelowTip_iff (h : Ready ctx s t) (hw : Target ctx s w) (hfork : s.findFork w = some f)
    (hl : pre ++ [b] <+: (s.offChain w).reverse) (hpre : ConnectedOnly ctx s t pre)
    (hb : ctx.connectBlock b ≠ .valid) :
    FailsBelowTip ctx s ↔ workComparator ctx s (pre.getLastD f) t = true := by
  have htip := h.active.tip h.tree
  constructor
  · rintro ⟨t', w', f', pre', b', htip', hw', hfork', hl', hpre', hb', hworse⟩
    obtain rfl := Option.some.inj (htip.symm.trans htip')
    obtain rfl := hw.eq hw'
    obtain rfl := Option.some.inj (hfork.symm.trans hfork')
    obtain ⟨rfl, -⟩ := hpre.unique hpre' hl hl' (fun hok => hb hok.1) (fun hok => hb' hok.1)
    exact hworse
  · intro hworse
    exact ⟨t, w, f, pre, b, htip, hw, hfork, hl, hpre, hb, hworse⟩

lemma Dropped.findFork_eq (h : Dropped s s') (b : Uint256) : s'.findFork b = s.findFork b := by
  have hcontains : s'.contains = s.contains := by
    funext c
    unfold contains
    rw [h.chain, h.nHeight]
  unfold findFork
  rw [h.toSameTree.lineage, hcontains]

lemma Advance.findFork_eq (h : Advance ctx s s' t f w pre rest) : s.findFork w = some f := by
  apply h.ready.findFork_eq (h.ready.candidates_mem w h.target.mem)
  rw [h.path]
  exact h.above

lemma tipNotWorse_iff (hs : SameTree s s') (ht : s.tip = some t) (ht' : s'.tip = some x) :
    TipNotWorse ctx s s' ↔ workComparator ctx s x t = false := by
  unfold TipNotWorse
  rw [ht, ht']
  constructor
  · rintro ⟨t', x', heq, heq', hle⟩
    obtain rfl := Option.some.inj heq
    obtain rfl := Option.some.inj heq'
    rwa [hs.workComparator] at hle
  · intro hle
    refine ⟨t, x, rfl, rfl, ?_⟩
    rwa [hs.workComparator]

/-- When the lock is released, the tip is as good as before exactly if no block fails too early on the
branch that the iteration took up. -/
theorem tipNotWorse_release_iff (h : Ready ctx s t) (hrun : LoopRun ctx ⟨s, none⟩ l)
    (hit : iterate ctx l = .ok (.released s' r)) : TipNotWorse ctx l.chain s' ↔ ¬FailsBelowTip ctx l.chain := by
  obtain ⟨t, hl⟩ := (LoopReady.of_ready h).run hrun
  have hout := hl.iterated hit
  have htree := hl.ready.tree
  have htip := hl.ready.active.tip htree
  -- a block that is not valid leaves the block below it as the tip
  have hfails : ∀ {s₁ s₂ f w b pre rest}, Dropped l.chain s₁ → Advance ctx s₁ s₂ t f w pre (b :: rest) →
      ConnectedOnly ctx l.chain t pre → ctx.connectBlock b ≠ .valid → SameTree s₂ s' → s'.tip = s₂.tip →
      (TipNotWorse ctx l.chain s' ↔ ¬FailsBelowTip ctx l.chain) := by
    intro s₁ s₂ f w b pre rest hs hstep hpre hb hsame heq
    have hw := (hs.target_iff htree).mp hstep.target
    have hfork : l.chain.findFork w = some f := by
      rw [← hs.findFork_eq]
      exact hstep.findFork_eq
    have hprefix : pre ++ [b] <+: (l.chain.offChain w).reverse := by
      rw [← hs.offChain_eq, hstep.path]
      exact ⟨rest, (append_cons pre b rest).symm⟩
    rw [failsBelowTip_iff hl.ready hw hfork hprefix hpre hb, Bool.not_eq_true]
    apply tipNotWorse_iff ((hs.toSameTree.trans hstep.sameTree).trans hsame) htip
    rw [heq]
    exact hstep.ready'.active.tip hstep.ready'.tree
  cases hout with
  | connected hs hne hstep hpre =>
    have hw := (hs.target_iff htree).mp hstep.target
    have hlast := hstep.ready.tree.eq_of_above_nil (hstep.ready.tree.above_getLastD hstep.above).2
    have htip' := hstep.ready'.active.tip hstep.ready'.tree
    rw [← hlast] at htip'
    rw [tipNotWorse_iff (hs.toSameTree.trans hstep.sameTree) htip htip', workComparator_eq_false_iff]
    refine iff_of_true (hl.ready.notWorse _ hw.mem) ?_
    rintro ⟨_, w', f', pre', b, -, hw', -, ⟨rest', hl'⟩, -, hb, -⟩
    obtain rfl := hw.eq hw'
    rw [← hs.offChain_eq, hstep.path, append_nil, append_assoc] at hl'
    apply hb
    refine (hpre b ?_).1
    rw [← hl']
    exact mem_append_right _ mem_cons_self
  | improved hs hne hstep hpre hb himproves =>
    have hw := (hs.target_iff htree).mp hstep.target
    have htip' := hstep.ready'.active.tip hstep.ready'.tree
    rw [getLastD_concat] at htip'
    rw [tipNotWorse_iff (hs.toSameTree.trans hstep.sameTree) htip htip', workComparator_eq_false_iff]
    refine iff_of_true (rank_lt_of_work_lt himproves).le ?_
    rintro ⟨t', w', f', pre', b', htip'', hw', -, hl', hpre', hb', -⟩
    obtain rfl := Option.some.inj (htip.symm.trans htip'')
    obtain rfl := hw.eq hw'
    rw [← hs.offChain_eq, hstep.path] at hl'
    obtain ⟨-, rfl⟩ := hpre.unique hpre' (prefix_append _ _) hl' (fun hok => hok.2 himproves)
      (fun hok => hb' hok.1)
    exact hb' hb
  | invalid hs hne hstep hpre hb =>
    apply hfails hs hstep hpre _ (frame_invalidBlockFound _).toSameTree rfl
    rw [hb]
    decide
  | corrupted hs hne hstep hpre hb =>
    apply hfails hs hstep hpre _ (SameTree.refl _) rfl
    rw [hb]
    decide

def blockHash (n : UInt8) : Uint256 := ⟨List.replicate 32 n, length_replicate⟩

def blockEntry (pprev : Option Uint256) (nHeight nChainWork nSequenceId : ℕ) : CBlockIndex :=
  { CBlockIndex.null with
    pprev := pprev
    nHeight := nHeight
    nChainWork := nChainWork
    nTx := 1
    nChainTx := nHeight + 1
    nStatus := ⟨BLOCK_VALID_SCRIPTS, true, true, false, false, false⟩
    nSequenceId := nSequenceId }

def forkedIndex : ChainState :=
  ofEntries
    [(blockHash 1, blockEntry none 0 1 0), (blockHash 2, blockEntry (some (blockHash 1)) 1 2 1),
      (blockHash 3, blockEntry (some (blockHash 2)) 2 3 2), (blockHash 4, blockEntry (some (blockHash 1)) 1 2 3),
      (blockHash 5, blockEntry (some (blockHash 4)) 2 3 4), (blockHash 6, blockEntry (some (blockHash 5)) 3 4 5)]
    [blockHash 1, blockHash 2, blockHash 3] [blockHash 3, blockHash 6]

def forkedContext (verdict : BlockVerdict) : ChainContext where
  params := ⟨blockHash 255, 150, 100000000⟩
  hashGenesisBlock := blockHash 1
  address := BaseBlob.value
  address_injective := BaseBlob.value_injective
  connectBlock b := if b = blockHash 5 then verdict else .valid
  undoPos _ := 8

lemma forkedIndex_ready (verdict : BlockVerdict) : Ready (forkedContext verdict) forkedIndex (blockHash 3) := by
  have htree : Tree forkedIndex := tree_ofEntries (by decide) ⟨blockHash 1, by decide⟩
  have hnotWorse : ∀ c ∈ forkedIndex.setBlockIndexCandidates,
      workComparator (forkedContext verdict) forkedIndex c (blockHash 3) = false := by
    cases verdict <;> decide +kernel
  refine ⟨htree, ⟨by decide, by decide⟩, by decide, by decide, fun c hc => ?_⟩
  exact workComparator_eq_false_iff.mp (hnotWorse c hc)

/-- With block 5 invalid, the lock is released when the tip is block 4, with less work than block 3. -/
theorem tipNotWorse_release_forkedIndex :
    Ready (forkedContext .invalid) forkedIndex (blockHash 3) ∧
      ∃ s', iterate (forkedContext .invalid) ⟨forkedIndex, none⟩ = .ok (.released s' none) ∧
        s'.tip = some (blockHash 4) ∧ ¬TipNotWorse (forkedContext .invalid) forkedIndex s' := by
  refine ⟨forkedIndex_ready .invalid, _, rfl, rfl, ?_⟩
  rintro ⟨t, t', ht, ht', hle⟩
  obtain rfl := Option.some.inj ht
  obtain rfl := Option.some.inj ht'
  revert hle
  decide +kernel

theorem tipNotWorse_release_iff_forkedIndex :
    ∃ s', iterate (forkedContext .invalid) ⟨forkedIndex, none⟩ = .ok (.released s' none) ∧
      (TipNotWorse (forkedContext .invalid) forkedIndex s' ↔ ¬FailsBelowTip (forkedContext .invalid) forkedIndex) :=
  ⟨_, rfl, tipNotWorse_release_iff (forkedIndex_ready .invalid) Relation.ReflTransGen.refl rfl⟩

end Release

section Termination

/-- On the way to the target the first block that does not connect is corrupted. -/
def MeetsCorruption (ctx : ChainContext) (s : ChainState) : Prop :=
  ∃ t w pre b, s.tip = some t ∧ Target ctx s w ∧ pre ++ [b] <+: (s.offChain w).reverse ∧
    ConnectedOnly ctx s t pre ∧ ctx.connectBlock b = .corrupted

lemma meetsCorruption_step (h : LoopReady ctx l t) (hmeets : MeetsCorruption ctx l.chain) :
    ∃ l', Continues ctx l l' ∧ MeetsCorruption ctx l'.chain := by
  obtain ⟨t', w, pre, b, htip, hw, hl, hpre, hb⟩ := hmeets
  have htree := h.ready.tree
  obtain rfl := Option.some.inj ((h.ready.active.tip htree).symm.trans htip)
  have hnot : ¬(ctx.connectBlock b = .valid ∧ ¬improvesOn l.chain t b) := by
    rw [hb]
    exact fun hok => nomatch hok.1
  have hmem : b ∈ (l.chain.offChain w).reverse := hl.subset (mem_append_right _ (mem_singleton_self b))
  obtain ⟨it, hit, hout⟩ := iterate_spec h
  cases hout with
  | idle hs hdone =>
    exfalso
    cases hdone with
    | inl hnil =>
      have hkept := hs.kept w hw.mem hw.usable
      rw [hnil] at hkept
      cases hkept
    | inr htarget =>
      -- there is no way up from the tip to itself
      obtain rfl := hw.eq htarget
      have hnone : ∀ u, ActiveTip l.chain u → l.chain.offChain u = [] := by
        intro u hu
        have hself : Above l.chain u u [] := rfl
        exact hu.offChain_eq htree hself
      rw [hnone _ h.ready.active] at hmem
      cases hmem
  | connected hs hne hstep hpre' =>
    obtain rfl := hw.eq ((hs.target_iff htree).mp hstep.target)
    rw [← hs.offChain_eq, hstep.path, append_nil] at hmem
    exact absurd (hpre' b hmem) hnot
  | improved hs hne hstep hpre' hb' himproves =>
    obtain rfl := hw.eq ((hs.target_iff htree).mp hstep.target)
    rw [← hs.offChain_eq, hstep.path] at hl
    obtain ⟨-, rfl⟩ := hpre.unique hpre' hl (prefix_append _ _) hnot (fun hok => hok.2 himproves)
    rw [hb] at hb'
    cases hb'
  | @invalid s₁ s' f w' b' pre' rest hs hne hstep hpre' hb' =>
    obtain rfl := hw.eq ((hs.target_iff htree).mp hstep.target)
    rw [← hs.offChain_eq, hstep.path, append_cons pre' b' rest] at hl
    have hnot' : ¬(ctx.connectBlock b' = .valid ∧ ¬improvesOn l.chain t b') := by
      rw [hb']
      exact fun hok => nomatch hok.1
    obtain ⟨-, rfl⟩ := hpre.unique hpre' hl (prefix_append _ _) hnot hnot'
    rw [hb] at hb'
    cases hb'
  | @corrupted s₁ s' f w' b' pre' rest hs hne hstep hpre' hb' =>
    obtain rfl := hw.eq ((hs.target_iff htree).mp hstep.target)
    have htip' := hstep.ready'.active.tip hstep.ready'.tree
    refine ⟨⟨s', none⟩, ⟨hit, ?_⟩, _, w, [], b', htip', hstep.target', ?_, ?_, hb'⟩
    · rw [htip']
      exact Option.some_ne_none _
    · rw [hstep.offChain', reverse_reverse]
      exact ⟨rest, rfl⟩
    · exact fun c hc => absurd hc not_mem_nil

lemma activateFrom_eq_none (h : LoopReady ctx l t) (hmeets : MeetsCorruption ctx l.chain) (fuel : ℕ) :
    activateFrom ctx fuel l = none := by
  induction fuel generalizing l t with
  | zero => rfl
  | succ fuel ih =>
    obtain ⟨l', hstep, hmeets'⟩ := meetsCorruption_step h hmeets
    obtain ⟨t', ht'⟩ := (h.iterated hstep.1).loopReady
    unfold activateFrom
    rw [hstep.1]
    dsimp only
    rw [if_neg hstep.2]
    exact ih ht' hmeets'

def unmarked (s : ChainState) : Finset Uint256 :=
  s.mapBlockIndex.toFinset.filter (fun b => (s.entry b).nStatus.failedValid = false)

def remaining (l : LoopState) : ℕ ×ₗ ℕ ×ₗ ℕ :=
  match l.pindexMostWork with
  | none => toLex (l.chain.unmarked.card, toLex (1, 0))
  | some w => toLex (l.chain.unmarked.card, toLex (0, (l.chain.offChain w).length))

lemma card_unmarked_eq (hmap : s'.mapBlockIndex = s.mapBlockIndex)
    (hfailed : ∀ b, (s'.entry b).nStatus.failedValid = (s.entry b).nStatus.failedValid) :
    s'.unmarked.card = s.unmarked.card := by
  unfold unmarked
  simp only [hmap, hfailed]

lemma card_unmarked_lt (hb : b ∈ s.mapBlockIndex) (hfailed : (s.entry b).nStatus.failedValid = false) :
    (s.invalidBlockFound b).unmarked.card < s.unmarked.card := by
  have hentry : ∀ c, ((s.invalidBlockFound b).entry c).nStatus.failedValid = false ↔
      c ≠ b ∧ (s.entry c).nStatus.failedValid = false := by
    intro c
    have hmark : ((s.invalidBlockFound b).entry c).nStatus.failedValid = true ↔ _ := failedValid_mark_iff
    rw [← Bool.not_eq_true, hmark, not_or, Bool.not_eq_true]
  apply Finset.card_lt_card
  rw [Finset.ssubset_iff_of_subset]
  · refine ⟨b, ?_, ?_⟩
    · exact Finset.mem_filter.mpr ⟨mem_toFinset.mpr hb, hfailed⟩
    · intro hmem
      exact ((hentry b).mp (Finset.mem_filter.mp hmem).2).1 rfl
  · intro c hc
    obtain ⟨hmem, hc⟩ := Finset.mem_filter.mp hc
    exact Finset.mem_filter.mpr ⟨hmem, ((hentry c).mp hc).2⟩

lemma remaining_lt (h : LoopReady ctx l t) (hstep : Continues ctx l l') (hmeets : ¬MeetsCorruption ctx l.chain) :
    remaining l' < remaining l := by
  obtain ⟨hit, hgoes⟩ := hstep
  have htree := h.ready.tree
  have hout := h.iterated hit
  obtain ⟨s', r⟩ := l'
  cases hout with
  | connected hs hne hstep hpre =>
    exfalso
    have hlast := hstep.ready.tree.eq_of_above_nil (hstep.ready.tree.above_getLastD hstep.above).2
    apply hgoes
    dsimp only
    rw [hstep.ready'.active.tip hstep.ready'.tree, ← hlast]
  | @improved s₁ s' f w b pre rest hs hne hstep hpre hb himproves =>
    have hcard : s'.unmarked.card = l.chain.unmarked.card := by
      apply card_unmarked_eq
      · rw [hstep.sameTree.map, hs.map]
      · intro c
        rw [hstep.extended.failedValid]
        exact hs.failedValid c
    have hoff : s'.offChain w = rest.reverse := hstep.offChain'
    unfold remaining
    dsimp only
    rw [hoff, hcard]
    cases hcached : l.pindexMostWork with
    | none =>
      refine Prod.Lex.toLex_lt_toLex.mpr (Or.inr ⟨rfl, ?_⟩)
      exact Prod.Lex.toLex_lt_toLex.mpr (Or.inl Nat.zero_lt_one)
    | some w' =>
      obtain rfl := (h.cached w' hcached).eq ((hs.target_iff htree).mp hstep.target)
      have hlen := congrArg List.length hstep.path
      rw [length_reverse, hs.offChain_eq, length_append, length_append, length_singleton] at hlen
      refine Prod.Lex.toLex_lt_toLex.mpr (Or.inr ⟨rfl, ?_⟩)
      refine Prod.Lex.toLex_lt_toLex.mpr (Or.inr ⟨rfl, ?_⟩)
      dsimp only
      rw [length_reverse]
      omega
  | @invalid s₁ s₂ f w b pre rest hs hne hstep hpre hb =>
    have hmem : b ∈ pre ++ b :: rest := mem_append_right _ mem_cons_self
    have hcard : s₂.unmarked.card = l.chain.unmarked.card := by
      apply card_unmarked_eq
      · rw [hstep.sameTree.map, hs.map]
      · intro c
        rw [hstep.extended.failedValid]
        exact hs.failedValid c
    have hnot : (s₂.entry b).nStatus.failedValid = false := by
      have hok := hstep.failed_eq b
      rw [hstep.not_failed hmem] at hok
      exact (Bool.or_eq_false_iff.mp hok).1
    have hb' : b ∈ s₂.mapBlockIndex := by
      rw [hstep.sameTree.map]
      exact (hstep.path_mem hmem).2
    have hless := card_unmarked_lt hb' hnot
    rw [hcard] at hless
    unfold remaining
    dsimp only
    cases hcached : l.pindexMostWork with
    | none => exact Prod.Lex.toLex_lt_toLex.mpr (Or.inl hless)
    | some w' => exact Prod.Lex.toLex_lt_toLex.mpr (Or.inl hless)
  | @corrupted s₁ s₂ f w b pre rest hs hne hstep hpre hb =>
    exfalso
    apply hmeets
    refine ⟨t, w, pre, b, h.ready.active.tip htree, (hs.target_iff htree).mp hstep.target, ?_, hpre, hb⟩
    rw [← hs.offChain_eq, hstep.path]
    exact ⟨rest, (append_cons pre b rest).symm⟩

/-- Without such a block the loop comes to an end. -/
theorem activateFrom_ends (h : LoopReady ctx l t)
    (hmeets : ∀ l', LoopRun ctx l l' → ¬MeetsCorruption ctx l'.chain) :
    ∃ fuel res, activateFrom ctx fuel l = some res := by
  induction hmeasure : remaining l using WellFoundedLT.induction generalizing l t with
  | ind n ih =>
    subst hmeasure
    obtain ⟨it, hit, hout⟩ := iterate_spec h
    cases it with
    | idle s' =>
      refine ⟨1, .ok s', ?_⟩
      unfold activateFrom
      rw [hit]
    | released s' w' =>
      by_cases hend : s'.tip = w'
      · refine ⟨1, .ok s', ?_⟩
        unfold activateFrom
        rw [hit]
        dsimp only
        rw [if_pos hend]
      · have hstep : Continues ctx l ⟨s', w'⟩ := ⟨hit, hend⟩
        obtain ⟨t', ht'⟩ := hout.loopReady
        have hless := remaining_lt h hstep (hmeets l Relation.ReflTransGen.refl)
        obtain ⟨fuel, res, hrun⟩ := ih _ hless ht' (fun l' hl' => hmeets l' (hl'.head hstep)) rfl
        refine ⟨fuel + 1, res, ?_⟩
        unfold activateFrom
        rw [hit]
        dsimp only
        rw [if_neg hend]
        exact hrun

/-- The call ends exactly if no iteration meets a block that may be corrupted. -/
theorem activateBestChain_ends_iff (h : Ready ctx s t) :
    (∃ s', ActivateBestChain ctx s (.ok s')) ↔ ∀ l, LoopRun ctx ⟨s, none⟩ l → ¬MeetsCorruption ctx l.chain := by
  constructor
  · rintro ⟨s', fuel, hres⟩ l hrun hmeets
    obtain ⟨t', ht'⟩ := (LoopReady.of_ready h).run hrun
    obtain ⟨fuel', hres'⟩ := activateFrom_of_run hrun hres
    rw [activateFrom_eq_none ht' hmeets] at hres'
    cases hres'
  · intro hmeets
    obtain ⟨fuel, res, hrun⟩ := activateFrom_ends (LoopReady.of_ready h) hmeets
    obtain ⟨s', rfl⟩ := activateBestChain_ok h ⟨fuel, hrun⟩
    exact ⟨s', fuel, hrun⟩

/-- With block 5 corrupted, the loop tries to connect it again and again. -/
theorem activateBestChain_ends_forkedIndex :
    Ready (forkedContext .corrupted) forkedIndex (blockHash 3) ∧
      ¬∃ res, ActivateBestChain (forkedContext .corrupted) forkedIndex res := by
  have hready := forkedIndex_ready .corrupted
  have hbest : ∀ c ∈ forkedIndex.setBlockIndexCandidates,
      workComparator (forkedContext .corrupted) forkedIndex (blockHash 6) c = false := by
    decide +kernel
  have hmeets : MeetsCorruption (forkedContext .corrupted) forkedIndex := by
    refine ⟨blockHash 3, blockHash 6, [blockHash 4], blockHash 5, rfl, ⟨by decide, ?_, ?_⟩, ⟨[blockHash 6], ?_⟩,
      ?_, rfl⟩
    · rintro ⟨a, ha, hfailed, -⟩
      revert a
      decide
    · exact fun c hc _ => workComparator_eq_false_iff.mp (hbest c hc)
    · decide
    · unfold ConnectedOnly improvesOn
      decide
  refine ⟨hready, ?_⟩
  rintro ⟨res, fuel, hrun⟩
  rw [activateFrom_eq_none (LoopReady.of_ready hready) hmeets] at hrun
  cases hrun

theorem activateBestChain_ends_iff_forkedIndex :
    (∃ s', ActivateBestChain (forkedContext .valid) forkedIndex (.ok s')) ↔
      ∀ l, LoopRun (forkedContext .valid) ⟨forkedIndex, none⟩ l → ¬MeetsCorruption (forkedContext .valid) l.chain :=
  activateBestChain_ends_iff (forkedIndex_ready .valid)

end Termination

end ChainState

end MutableBitcoin
