import MutableBitcoin.BlockIndexInvariant

/-!
# The choice of the chain

Whatever blocks turn out invalid, `ActivateBestChain` ends with the best block whose whole chain is
there and valid.
-/

namespace MutableBitcoin
open Lib List

namespace ChainState

variable {ctx : ChainContext} {s s' s'' s₁ : ChainState} {a b c f t w x : Uint256} {pre rest : List Uint256}
  {l l' : LoopState}

section Good

/-- All blocks of the branch are there and valid. -/
def Good (ctx : ChainContext) (s : ChainState) (b : Uint256) : Prop :=
  b ∈ s.mapBlockIndex ∧ ∀ a ∈ s.lineage b, (s.entry a).nStatus.haveData = true ∧
    ctx.connectBlock a = .valid ∧ (s.entry a).nStatus.failed = false

lemma Good.clean (h : Good ctx s b) : s.Clean b := fun a ha => (h.2 a ha).2.2

lemma Good.of_lineage (h : Good ctx s b) (hs : Tree s) (ha : a ∈ s.lineage b) : Good ctx s a :=
  ⟨hs.mem_of_lineage h.1 ha, fun c hc => h.2 c (hs.trans hc ha)⟩

lemma BlockIndexInv.good_tip (h : BlockIndexInv ctx s t []) : Good ctx s t := by
  refine ⟨h.active.mem, fun a ha => ?_⟩
  obtain ⟨-, hvalid, hclean⟩ := h.chain a ha
  exact ⟨(h.haveData a (h.tree.mem_of_lineage h.active.mem ha)).mpr (h.nTx_chain ha), hvalid, hclean⟩

lemma BlockIndexInv.nChainTx_of_good (h : BlockIndexInv ctx s t []) (hb : Good ctx s b) :
    (s.entry b).nChainTx ≠ 0 := by
  apply h.nChainTx_of_complete hb.1 _ hb.clean.noneInvalid
  intro a ha
  exact (h.haveData a (h.tree.mem_of_lineage hb.1 ha)).mp (hb.2 a ha).1

lemma exists_best_good (h : Good ctx s t) : ∃ v, Good ctx s v ∧ ∀ b, Good ctx s b → rank ctx s b ≤ rank ctx s v := by
  classical
  have hnonempty : (s.mapBlockIndex.toFinset.filter (Good ctx s)).Nonempty :=
    ⟨t, Finset.mem_filter.mpr ⟨mem_toFinset.mpr h.1, h⟩⟩
  obtain ⟨v, hv, hmax⟩ := Finset.exists_max_image _ (rank ctx s) hnonempty
  refine ⟨v, (Finset.mem_filter.mp hv).2, fun b hb => ?_⟩
  exact hmax b (Finset.mem_filter.mpr ⟨mem_toFinset.mpr hb.1, hb⟩)

end Good

section Kept

/-- No failed block recovers, and what is good stays good. -/
structure Kept (ctx : ChainContext) (s s' : ChainState) : Prop extends Frame s s' where
  failed_mono : ∀ b, (s.entry b).nStatus.failed = true → (s'.entry b).nStatus.failed = true
  failedValid_mono : ∀ b, (s.entry b).nStatus.failedValid = true → (s'.entry b).nStatus.failedValid = true
  failedValid_new : ∀ b, (s'.entry b).nStatus.failedValid = true →
    (s.entry b).nStatus.failedValid = true ∨ ctx.connectBlock b = .invalid
  failed_new : ∀ b, (s'.entry b).nStatus.failed = true →
    (s.entry b).nStatus.failed = true ∨ (s.entry b).nChainTx ≠ 0
  explained : Explained s → Explained s'
  candidates : s'.setBlockIndexCandidates ⊆ s.setBlockIndexCandidates
  kept : ∀ c ∈ s.setBlockIndexCandidates, (s'.entry c).nStatus.failed = false →
    (∀ b, Good ctx s b → rank ctx s b ≤ rank ctx s c) → c ∈ s'.setBlockIndexCandidates

namespace Kept

lemma refl (ctx : ChainContext) (s : ChainState) : Kept ctx s s where
  toFrame := Frame.refl s
  failed_mono _ hb := hb
  failedValid_mono _ hb := hb
  failedValid_new _ hb := Or.inl hb
  failed_new _ hb := Or.inl hb
  explained hs := hs
  candidates _ hc := hc
  kept _ hc _ _ := hc

lemma good_iff (h : Kept ctx s s') (hs : Tree s) (hexplained : Explained s) : Good ctx s' b ↔ Good ctx s b := by
  constructor
  · rintro ⟨hb, hgood⟩
    rw [h.map] at hb
    refine ⟨hb, fun a ha => ?_⟩
    rw [← h.toSameTree.lineage] at ha
    obtain ⟨hdata, hvalid, hclean⟩ := hgood a ha
    rw [h.haveData] at hdata
    refine ⟨hdata, hvalid, ?_⟩
    rw [← Bool.not_eq_true] at hclean ⊢
    exact mt (h.failed_mono a) hclean
  · rintro ⟨hb, hgood⟩
    refine ⟨by rwa [h.map], fun a ha => ?_⟩
    rw [h.toSameTree.lineage] at ha
    obtain ⟨hdata, hvalid, hclean⟩ := hgood a ha
    rw [h.haveData]
    refine ⟨hdata, hvalid, ?_⟩
    rw [← Bool.not_eq_true]
    intro hfailed
    obtain ⟨d, hd, hinvalid⟩ := h.explained hexplained a (by rw [h.map]; exact hs.mem_of_lineage hb ha) hfailed
    rw [h.toSameTree.lineage] at hd
    obtain ⟨-, hvalid', hclean'⟩ := hgood d (hs.trans hd ha)
    cases h.failedValid_new d hinvalid with
    | inl hold =>
      rw [failed_iff.mpr (Or.inl hold)] at hclean'
      cases hclean'
    | inr hnew =>
      rw [hvalid'] at hnew
      cases hnew

lemma trans (h : Kept ctx s s') (hs : Tree s) (hexplained : Explained s) (h' : Kept ctx s' s'') : Kept ctx s s'' where
  toFrame := h.toFrame.trans h'.toFrame
  failed_mono b hb := h'.failed_mono b (h.failed_mono b hb)
  failedValid_mono b hb := h'.failedValid_mono b (h.failedValid_mono b hb)
  failedValid_new b hb := by
    cases h'.failedValid_new b hb with
    | inl hmid => exact h.failedValid_new b hmid
    | inr hnew => exact Or.inr hnew
  failed_new b hb := by
    cases h'.failed_new b hb with
    | inl hmid => exact h.failed_new b hmid
    | inr hlinked =>
      rw [h.nChainTx] at hlinked
      exact Or.inr hlinked
  explained hs := h'.explained (h.explained hs)
  candidates _ hc := h.candidates (h'.candidates hc)
  kept c hc hok hbest := by
    have hmid : (s'.entry c).nStatus.failed = false := by
      rw [← Bool.not_eq_true] at hok ⊢
      exact mt (h'.failed_mono c) hok
    refine h'.kept c (h.kept c hc hmid hbest) hok fun b hb => ?_
    rw [h.toSameTree.rank, h.toSameTree.rank]
    exact hbest b ((h.good_iff hs hexplained).mp hb)

end Kept

lemma Dropped.kept_of (h : Dropped s s') (hs : Tree s) : Kept ctx s s' where
  toFrame := h.toFrame
  failed_mono _ hb := h.failed_mono hb
  failedValid_mono b hb := by rwa [h.failedValid]
  failedValid_new b hb := by
    rw [h.failedValid] at hb
    exact Or.inl hb
  failed_new b hb := (h.failed_new hb).imp_right And.right
  explained hexplained b hb hfailed := by
    rw [h.map] at hb
    simp only [h.toSameTree.lineage, h.failedValid]
    cases h.failed_new hfailed with
    | inl hold => exact hexplained b hb hold
    | inr hspoiled =>
      obtain ⟨⟨a, ha, hfailed, -⟩, -⟩ := hspoiled
      obtain ⟨d, hd, hinvalid⟩ := hexplained a (hs.mem_of_lineage hb ha) hfailed
      exact ⟨d, hs.trans hd ha, hinvalid⟩
  candidates := h.candidates.subset
  kept c hc hok _ := by
    by_contra hnot
    rw [h.removed c hc hnot] at hok
    cases hok

lemma Advance.good (h : Advance ctx s s' t f w pre rest) (ht : Good ctx s t)
    (hvalid : ∀ x ∈ pre, ctx.connectBlock x = .valid) (hx : x ∈ pre) : Good ctx s x := by
  have hmem : ∀ y ∈ pre, y ∈ pre ++ rest := fun y hy => mem_append_left _ hy
  refine ⟨(h.path_mem (hmem x hx)).2, fun a ha => ?_⟩
  obtain ⟨l₁, l₂, rfl⟩ := append_of_mem hx
  have habove := h.above
  rw [append_assoc, cons_append, append_cons] at habove
  rw [(h.ready.tree.above_append habove).1, mem_append, mem_reverse] at ha
  cases ha with
  | inl hpre =>
    have hin : a ∈ l₁ ++ x :: l₂ := by
      rw [append_cons]
      exact mem_append_left _ hpre
    obtain ⟨hlineage, -⟩ := h.path_mem (hmem a hin)
    exact ⟨(h.ready.linked w h.target.mem a hlineage).2, hvalid a hin, h.not_failed (hmem a hin)⟩
  | inr hbelow => exact ht.2 a (h.ready.tree.trans hbelow h.fork)

lemma Advance.good_getLastD (h : Advance ctx s s' t f w pre rest) (ht : Good ctx s t)
    (hvalid : ∀ x ∈ pre, ctx.connectBlock x = .valid) : Good ctx s (pre.getLastD f) := by
  cases pre using List.reverseRecOn with
  | nil => exact ht.of_lineage h.ready.tree h.fork
  | append_singleton pre x =>
    rw [getLastD_concat]
    exact h.good ht hvalid (mem_append_right _ (mem_singleton_self x))

lemma Advance.kept_of (h : Advance ctx s s' t f w pre rest) (ht : Good ctx s t)
    (hvalid : ∀ x ∈ pre, ctx.connectBlock x = .valid) : Kept ctx s s' where
  toFrame := (frame_disconnectTo (some f)).trans h.extended.toFrame
  failed_mono b hb := by rwa [h.failed_eq]
  failedValid_mono b hb := by
    rw [h.extended.failedValid]
    exact hb
  failedValid_new b hb := by
    rw [h.extended.failedValid] at hb
    exact Or.inl hb
  failed_new b hb := by
    rw [h.failed_eq] at hb
    exact Or.inl hb
  explained hexplained b hb hfailed := by
    rw [h.sameTree.map] at hb
    rw [h.failed_eq] at hfailed
    simp only [h.sameTree.lineage, h.extended.failedValid]
    exact hexplained b hb hfailed
  candidates c hc := (h.candidates_iff.mp hc).1
  kept c hc _ hbest := h.candidates_iff.mpr ⟨hc, fun x hx => hbest x (h.good ht hvalid hx)⟩

lemma kept_invalidBlockFound (hs : Tree s) (hlinked : (s.entry b).nChainTx ≠ 0)
    (hb : ctx.connectBlock b = .invalid) : Kept ctx s (s.invalidBlockFound b) := by
  have hvalid : ∀ {d}, ((s.invalidBlockFound b).entry d).nStatus.failedValid = true ↔
      d = b ∨ (s.entry d).nStatus.failedValid = true := failedValid_mark_iff
  have hfailed : ∀ {d}, ((s.invalidBlockFound b).entry d).nStatus.failed = true ↔
      d = b ∨ (s.entry d).nStatus.failed = true := failed_mark_iff
  constructor
  case toFrame => exact frame_invalidBlockFound b
  case failedValid_mono => exact fun d hd => hvalid.mpr (Or.inr hd)
  case failed_mono => exact fun d hd => hfailed.mpr (Or.inr hd)
  case failedValid_new =>
    intro d hd
    cases hvalid.mp hd with
    | inl heq => exact Or.inr (heq ▸ hb)
    | inr hold => exact Or.inl hold
  case failed_new =>
    intro d hd
    cases hfailed.mp hd with
    | inl heq => exact Or.inr (heq ▸ hlinked)
    | inr hold => exact Or.inl hold
  case explained =>
    intro hexplained d hd hd'
    simp only [(frame_invalidBlockFound b).toSameTree.lineage]
    cases hfailed.mp hd' with
    | inl heq =>
      rw [heq]
      exact ⟨b, hs.self_mem b, hvalid.mpr (Or.inl rfl)⟩
    | inr hold =>
      obtain ⟨a, ha, hinvalid⟩ := hexplained d hd hold
      exact ⟨a, ha, hvalid.mpr (Or.inr hinvalid)⟩
  case candidates => exact filter_subset_self _
  case kept =>
    intro c hc hok _
    refine mem_filter.mpr ⟨hc, decide_eq_true ?_⟩
    rintro rfl
    rw [hfailed.mpr (Or.inl rfl)] at hok
    cases hok

end Kept

section Search

/-- An iteration keeps the good blocks, and its new tip is one of them. -/
theorem Iterated.kept_of {r : Option Uint256} (h : Iterated ctx s t (.released s' r)) (hs : Ready ctx s t)
    (hexplained : Explained s) (ht : Good ctx s t) :
    Kept ctx s s' ∧ ∃ t', LoopReady ctx ⟨s', r⟩ t' ∧ Good ctx s' t' := by
  -- the step behind the search for a target
  have hstep : ∀ {s₁ s₂ f w pre rest}, Dropped s s₁ → Advance ctx s₁ s₂ t f w pre rest →
      (∀ x ∈ pre, ctx.connectBlock x = .valid) → Kept ctx s s₂ ∧ Good ctx s₂ (pre.getLastD f) := by
    intro s₁ s₂ f w pre rest hdropped hadvance hvalid
    have hkept : Kept ctx s s₁ := hdropped.kept_of hs.tree
    have ht₁ := (hkept.good_iff hs.tree hexplained).mpr ht
    have hexplained₁ := hkept.explained hexplained
    have hkept' := hadvance.kept_of ht₁ hvalid
    refine ⟨hkept.trans hs.tree hexplained hkept', ?_⟩
    rw [hkept'.good_iff hadvance.ready.tree hexplained₁]
    exact hadvance.good_getLastD ht₁ hvalid
  cases h with
  | connected hdropped hne hadvance hpre =>
    obtain ⟨hkept, hgood⟩ := hstep hdropped hadvance (fun x hx => (hpre x hx).1)
    refine ⟨hkept, _, ⟨hadvance.ready', fun v hv => ?_⟩, hgood⟩
    obtain rfl := Option.some.inj hv
    exact hadvance.target'
  | @improved s₁ s₂ f w b pre rest hdropped hne hadvance hpre hb himproves =>
    have hvalid : ∀ x ∈ pre ++ [b], ctx.connectBlock x = .valid := by
      rw [forall_mem_append, forall_mem_singleton]
      exact ⟨fun x hx => (hpre x hx).1, hb⟩
    obtain ⟨hkept, hgood⟩ := hstep hdropped hadvance hvalid
    refine ⟨hkept, _, ⟨hadvance.ready', fun v hv => ?_⟩, hgood⟩
    obtain rfl := Option.some.inj hv
    exact hadvance.target'
  | @invalid s₁ s₂ f w b pre rest hdropped hne hadvance hpre hb =>
    obtain ⟨hkept, hgood⟩ := hstep hdropped hadvance (fun x hx => (hpre x hx).1)
    have htree := hadvance.ready'.tree
    have hlinked : (s₂.entry b).nChainTx ≠ 0 := by
      rw [hadvance.sameTree.nChainTx]
      exact (hadvance.ready.linked w hadvance.target.mem b
        (hadvance.path_mem (mem_append_right _ mem_cons_self)).1).1
    have hmark := kept_invalidBlockFound htree hlinked hb
    refine ⟨hkept.trans hs.tree hexplained hmark, _,
      ⟨hadvance.ready'.invalidBlockFound b, fun v hv => nomatch hv⟩, ?_⟩
    rw [hmark.good_iff htree (hkept.explained hexplained)]
    exact hgood
  | corrupted hdropped hne hadvance hpre hb =>
    obtain ⟨hkept, hgood⟩ := hstep hdropped hadvance (fun x hx => (hpre x hx).1)
    exact ⟨hkept, _, ⟨hadvance.ready', fun v hv => nomatch hv⟩, hgood⟩

/-- The tip is a best good block. -/
structure Selected (ctx : ChainContext) (s s' : ChainState) (t : Uint256) : Prop extends Kept ctx s s' where
  ready : Ready ctx s' t
  good : Good ctx s' t
  best : ∀ b, Good ctx s b → rank ctx s b ≤ rank ctx s t

lemma BlockIndexInv.exists_best_candidate (h : BlockIndexInv ctx s t []) :
    ∃ v, Good ctx s v ∧ (∀ b, Good ctx s b → rank ctx s b ≤ rank ctx s v) ∧
      ∀ s', Kept ctx s s' → v ∈ s'.setBlockIndexCandidates ∧ Good ctx s' v := by
  obtain ⟨v, hv, hbest⟩ := exists_best_good h.good_tip
  have hcandidate : v ∈ s.setBlockIndexCandidates :=
    h.candidate v hv.1 (h.nChainTx_of_good hv) hv.clean (hbest t h.good_tip)
  refine ⟨v, hv, hbest, fun s' hkept => ?_⟩
  have hgood := (hkept.good_iff h.tree h.explained).mpr hv
  exact ⟨hkept.kept v hcandidate (hgood.clean v ((hkept.toSameTree.tree h.tree).self_mem v)) hbest, hgood⟩

/-- The loop has come here from the state `s`. -/
def Searching (ctx : ChainContext) (s : ChainState) (l : LoopState) : Prop :=
  ∃ t', LoopReady ctx l t' ∧ Good ctx l.chain t' ∧ Kept ctx s l.chain

lemma BlockIndexInv.searching (h : BlockIndexInv ctx s t []) : Searching ctx s ⟨s, none⟩ :=
  ⟨t, LoopReady.of_ready h.ready, h.good_tip, Kept.refl ctx s⟩

namespace Searching

lemma next (hl : Searching ctx s l) (h : BlockIndexInv ctx s t []) {r : Option Uint256}
    (hit : iterate ctx l = .ok (.released s' r)) : Searching ctx s ⟨s', r⟩ := by
  obtain ⟨t', hready, hgood, hkept⟩ := hl
  obtain ⟨hkept', t'', hready', hgood'⟩ :=
    (hready.iterated hit).kept_of hready.ready (hkept.explained h.explained) hgood
  exact ⟨t'', hready', hgood', hkept.trans h.tree h.explained hkept'⟩

lemma best_of_target (h : BlockIndexInv ctx s t []) (hkept : Kept ctx s s') (hx : Target ctx s' x)
    (hb : Good ctx s b) : rank ctx s b ≤ rank ctx s x := by
  obtain ⟨v, -, hbest, hstays⟩ := h.exists_best_candidate
  obtain ⟨hmem, hgood⟩ := hstays s' hkept
  apply (hbest b hb).trans
  rw [← hkept.toSameTree.rank v, ← hkept.toSameTree.rank x]
  apply hx.max v hmem
  rintro ⟨a, ha, hfailed, -⟩
  rw [hgood.clean a ha] at hfailed
  cases hfailed

lemma selected_of_tip (hl : Searching ctx s ⟨s', s'.tip⟩) (h : BlockIndexInv ctx s t []) :
    ∃ t', Selected ctx s s' t' := by
  obtain ⟨t', hready, hgood, hkept⟩ := hl
  have htarget := hready.cached t' (hready.ready.active.tip hready.ready.tree)
  exact ⟨t', hkept, hready.ready, hgood, fun b hb => best_of_target h hkept htarget hb⟩

lemma selected_of_idle (hl : Searching ctx s l) (h : BlockIndexInv ctx s t [])
    (hit : iterate ctx l = .ok (.idle s')) : ∃ t', Selected ctx s s' t' := by
  obtain ⟨t', hready, hgood, hkept⟩ := hl
  cases hready.iterated hit with
  | idle hdropped hdone =>
    have hkept' := hkept.trans h.tree h.explained (hdropped.kept_of hready.ready.tree)
    refine ⟨t', hkept', hdropped.ready hready.ready, ?_, ?_⟩
    · rw [hkept'.good_iff h.tree h.explained, ← hkept.good_iff h.tree h.explained]
      exact hgood
    · cases hdone with
      | inl hnil =>
        obtain ⟨v, -, -, hstays⟩ := h.exists_best_candidate
        have hmem := (hstays s' hkept').1
        rw [hnil] at hmem
        cases hmem
      | inr hdone => exact fun b hb => best_of_target h hkept hdone hb

theorem selected (hl : Searching ctx s l) (h : BlockIndexInv ctx s t []) {fuel : ℕ}
    {res : Except ChainFailure ChainState} (hrun : activateFrom ctx fuel l = some res) :
    ∃ s' t', res = .ok s' ∧ Selected ctx s s' t' := by
  rcases activateFrom_rule hl (fun l l' hl hstep => hl.next h hstep.1) hrun with
    ⟨l, ⟨t', hready, -⟩, e, hit, -⟩ | ⟨l, s', hl, hit, rfl⟩ | ⟨l, s', hl, hit, rfl⟩
  · obtain ⟨it, hit', -⟩ := iterate_spec hready
    rw [hit'] at hit
    cases hit
  · obtain ⟨t', hselected⟩ := hl.selected_of_idle h hit
    exact ⟨s', t', rfl, hselected⟩
  · obtain ⟨t', hselected⟩ := (hl.next h hit).selected_of_tip h
    exact ⟨s', t', rfl, hselected⟩

end Searching

theorem selected_of_run (h : BlockIndexInv ctx s t []) {res : Except ChainFailure ChainState}
    (hres : ActivateBestChain ctx s res) : ∃ s' t', res = .ok s' ∧ Selected ctx s s' t' := by
  obtain ⟨fuel, hrun⟩ := hres
  exact h.searching.selected h hrun

/-- The invariants hold again when the call ends. -/
theorem Selected.inv (h : Selected ctx s s' x) (hs : BlockIndexInv ctx s t []) : BlockIndexInv ctx s' x [] := by
  have hx : Good ctx s x := (h.good_iff hs.tree hs.explained).mp h.good
  apply hs.of_frame h.toFrame h.ready
  · intro a ha
    obtain ⟨-, hvalid, hok⟩ := h.good.2 a (by rwa [h.toSameTree.lineage])
    exact ⟨hs.nChainTx_lineage hx.1 (hs.nChainTx_of_good hx) ha, hvalid, hok⟩
  · exact h.failedValid_mono
  · exact h.explained hs.explained
  · intro b hb hlinked hok hle
    have hclean : s.Clean b := by
      intro a ha
      rw [← Bool.not_eq_true]
      intro hfailed
      have hnot := hok a (by rwa [h.toSameTree.lineage])
      rw [h.failed_mono a hfailed] at hnot
      cases hnot
    have hmem := hs.candidate b hb hlinked hclean ((h.best t hs.good_tip).trans hle)
    exact h.kept b hmem (hok b (h.ready.tree.self_mem b)) (fun d hd => (h.best d hd).trans hle)

/-- With blocks that are valid or invalid, the call ends, and no block whose whole chain is there, valid and
not failed is better than the tip. -/
theorem activateBestChain_selects (h : BlockIndexInv ctx s t []) (hverdict : ∀ b, ctx.connectBlock b ≠ .corrupted) :
    (∃ res, ActivateBestChain ctx s res) ∧
      ∀ res, ActivateBestChain ctx s res → ∃ s' t', res = .ok s' ∧ s'.tip = some t' ∧ Good ctx s' t' ∧
        ∀ b, Good ctx s b ∨ Good ctx s' b → workComparator ctx s' t' b = false := by
  constructor
  · have hmeets : ∀ l, LoopRun ctx ⟨s, none⟩ l → ¬MeetsCorruption ctx l.chain := by
      rintro l - ⟨-, -, -, b, -, -, -, -, hb⟩
      exact hverdict b hb
    obtain ⟨fuel, res, hrun⟩ := activateFrom_ends (LoopReady.of_ready h.ready) hmeets
    exact ⟨res, fuel, hrun⟩
  · intro res hres
    obtain ⟨s', t', rfl, hselected⟩ := selected_of_run h hres
    refine ⟨s', t', rfl, hselected.ready.active.tip hselected.ready.tree, hselected.good, fun b hb => ?_⟩
    have hgood : Good ctx s b := by
      cases hb with
      | inl hb => exact hb
      | inr hb => exact (hselected.good_iff h.tree h.explained).mp hb
    rw [workComparator_eq_false_iff, hselected.toSameTree.rank, hselected.toSameTree.rank]
    exact hselected.best b hgood

theorem activateBestChain_selects_forkedIndex :
    (∃ res, ActivateBestChain (forkedContext .invalid) forkedIndex res) ∧
      ∀ res, ActivateBestChain (forkedContext .invalid) forkedIndex res → ∃ s' t', res = .ok s' ∧
        s'.tip = some t' ∧ Good (forkedContext .invalid) s' t' ∧
        ∀ b, Good (forkedContext .invalid) forkedIndex b ∨ Good (forkedContext .invalid) s' b →
          workComparator (forkedContext .invalid) s' t' b = false := by
  apply activateBestChain_selects forkedIndex_inv
  intro b
  unfold forkedContext
  dsimp only
  split_ifs <;> decide

end Search

end ChainState

end MutableBitcoin
