import MutableBitcoin.VersionCache

/-!
# Assertions and termination

None of the assertions on heights fails, the loop of `ConnectBlock` ends after one round, and so
does the recursion of `cacheGetNextRootMerkelPatriciaTree`.
-/

namespace MutableBitcoin
open Lib List Function Option Nat

variable {sha256 : Bytes → Uint256} {index : Uint256 → Option ℕ} {root : Trie → Str}
  {st st' st₁ st₂ st₃ : VersionState sha256} {fuel best : ℕ}

section Completes

variable {α β : Type}

/-- Neither a failed assertion nor an endless recursion. -/
def Completes (x : Except Stop α) : Prop := x ≠ .error .hight ∧ x ≠ .error .depth

lemma completes_ok (a : α) : Completes (.ok a) := ⟨by simp, by simp⟩

lemma completes_ofScan (o : Option α) : Completes (ofScan o) := by
  cases o <;> simp [Completes, ofScan]

lemma Completes.bind {x : Except Stop α} {f : α → Except Stop β} (hx : Completes x)
    (hf : ∀ a, x = .ok a → Completes (f a)) : Completes (x >>= f) := by
  cases x with
  | error e => simpa [Completes, Bind.bind, Except.bind] using hx
  | ok a => exact hf a rfl

lemma Completes.map {x : Except Stop α} (hx : Completes x) (f : α → β) : Completes (x.map f) := by
  cases x with
  | error e => simpa [Completes, Except.map] using hx
  | ok a => exact completes_ok _

lemma completes_foldlM {ι : Type} {step : α → ι → Except Stop α} {l : List ι} {a : α}
    (h : ∀ a, ∀ i ∈ l, Completes (step a i)) : Completes (l.foldlM step a) := by
  induction l generalizing a with
  | nil => exact completes_ok a
  | cons i l ih =>
    rw [foldlM_cons]
    exact (h a i mem_cons_self).bind
      (fun a' _ => ih (fun a i hi => h a i (mem_cons_of_mem _ hi)))

end Completes

section FirstTrie

lemma completes_initMerkelPatriciaTree : Completes (initMerkelPatriciaTree index st) := by
  have hcreate : Completes (createTrie index st.disk st.mpt) := by
    apply completes_foldlM
    intro mpt hight _
    cases st.disk[hight]? with
    | none => exact completes_ok _
    | some block =>
      apply Completes.bind
      · unfold checkBlockUChain
        split_ifs with h₁ h₂ h₃
        · exact completes_ok _
        · cases h₂.1
        · cases h₃.1
        · exact completes_ofScan _
      · intro _ _
        exact completes_ok _
  exact hcreate.bind (fun mpt _ => completes_ok _)

/-- Blocks, list and height of the second trie are unchanged. -/
structure SameCache (st st' : VersionState sha256) : Prop where
  disk : st'.disk = st.disk
  mptList : st'.mptList = st.mptList
  nMPTCacheHight : st'.nMPTCacheHight = st.nMPTCacheHight

lemma sameCache_initMerkelPatriciaTree (h : initMerkelPatriciaTree index st = .ok st') :
    SameCache st st' ∧ st'.nMPTActiveHight = st'.height := by
  obtain ⟨mpt, -, heq⟩ := bind_eq_ok_iff.mp h
  obtain rfl := Except.ok.inj heq
  exact ⟨⟨rfl, rfl, rfl⟩, rfl⟩

/-- What `getNextRootMerkelPatriciaTree` may change. -/
structure Advanced (root : Trie → Str) (st st' : VersionState sha256) : Prop where
  disk : st'.disk = st.disk
  nMPTCacheHight : st'.nMPTCacheHight = st.nMPTCacheHight
  nMPTActiveHight : st'.nMPTActiveHight = st.height + 1
  mptList : ∀ hight ≠ st.height + 1, st'.mptList hight = st.mptList hight
  slot : MIN_MUTABLETX_AGE < st.height + 1 → st'.mptList (st.height + 1) = root st'.mpt
  young : ¬MIN_MUTABLETX_AGE < st.height + 1 → st'.mptList = st.mptList

lemma applyHotBlock_completes (hpos : 0 < st.disk.length) (hactive : st.nMPTActiveHight = st.height) :
    Completes (applyHotBlock index root st) ∧
      ∀ st', applyHotBlock index root st = .ok st' → Advanced root st st' := by
  have hMIN : MIN_MUTABLETX_AGE = 100 := rfl
  by_cases hold : MIN_MUTABLETX_AGE < st.height + 1
  · have hlt : st.height + 1 - MIN_MUTABLETX_AGE < st.disk.length := by
      unfold VersionState.height at *
      omega
    obtain ⟨b, hb⟩ : ∃ b, st.height + 1 - MIN_MUTABLETX_AGE = b + 1 :=
      ⟨st.height - MIN_MUTABLETX_AGE, by omega⟩
    rw [hb] at hlt
    rw [applyHotBlock_eq_map hb (getElem?_eq_getElem hlt)]
    refine ⟨(completes_ofScan _).map _, ?_⟩
    intro st' hrun
    obtain ⟨sc, -, rfl⟩ := map_ofScan_eq_ok_iff.mp hrun
    refine ⟨rfl, rfl, by rw [hactive], fun h hne => update_of_ne hne .., fun _ => ?_, ?_⟩
    · exact update_self ..
    · exact fun hyoung => absurd hold hyoung
  · unfold applyHotBlock
    rw [if_neg hold]
    refine ⟨completes_ok _, ?_⟩
    intro st' hrun
    obtain rfl := Except.ok.inj hrun
    exact ⟨rfl, rfl, by rw [hactive], fun _ _ => rfl, fun h => absurd h hold, fun _ => rfl⟩

lemma SameCache.refl (st : VersionState sha256) : SameCache st st := ⟨rfl, rfl, rfl⟩

lemma SameCache.height (h : SameCache st st') : st'.height = st.height := VersionState.height_congr h.disk

lemma Advanced.of_sameCache (h : SameCache st₁ st₂) (h' : Advanced root st₂ st₃) : Advanced root st₁ st₃ where
  disk := h'.disk.trans h.disk
  nMPTCacheHight := h'.nMPTCacheHight.trans h.nMPTCacheHight
  nMPTActiveHight := by rw [h'.nMPTActiveHight, h.height]
  mptList hight hne := by rw [h'.mptList hight (by rwa [h.height]), h.mptList]
  slot hold := by
    rw [← h.height] at hold ⊢
    exact h'.slot hold
  young hyoung := by
    rw [← h.height] at hyoung
    rw [h'.young hyoung, h.mptList]

lemma initialized_completes (p : Prop) [Decidable p] :
    Completes (if p then .ok st else initMerkelPatriciaTree index st) ∧
      ∀ st', (if p then .ok st else initMerkelPatriciaTree index st) = .ok st' →
        SameCache st st' ∧ (p ∧ st' = st ∨ st'.nMPTActiveHight = st'.height) := by
  by_cases hp : p
  · rw [if_pos hp]
    refine ⟨completes_ok st, ?_⟩
    intro st' hrun
    obtain rfl := Except.ok.inj hrun
    exact ⟨SameCache.refl st, Or.inl ⟨hp, rfl⟩⟩
  · rw [if_neg hp]
    refine ⟨completes_initMerkelPatriciaTree, ?_⟩
    intro st' hrun
    obtain ⟨hsame, hactive⟩ := sameCache_initMerkelPatriciaTree hrun
    exact ⟨hsame, Or.inr hactive⟩

lemma getNextRoot_completes (hpos : 0 < st.disk.length) :
    Completes (getNextRootMerkelPatriciaTree index root st) ∧
      ∀ r st', getNextRootMerkelPatriciaTree index root st = .ok (r, st') → Advanced root st st' := by
  -- the state before the hot block, and what is left to do from there
  have hready : ∀ st₁ st₂ : VersionState sha256,
      (if st.fMPTinit then .ok st else initMerkelPatriciaTree index st) = .ok st₁ →
      (if st₁.nMPTActiveHight = st₁.height then .ok st₁ else initMerkelPatriciaTree index st₁) = .ok st₂ →
      SameCache st st₂ ∧ st₂.nMPTActiveHight = st₂.height := by
    intro st₁ st₂ h₁ h₂
    obtain ⟨hsame₁, -⟩ := (initialized_completes (st.fMPTinit = true)).2 st₁ h₁
    obtain ⟨hsame₂, hactive⟩ := (initialized_completes (st₁.nMPTActiveHight = st₁.height)).2 st₂ h₂
    refine ⟨⟨hsame₂.disk.trans hsame₁.disk, hsame₂.mptList.trans hsame₁.mptList,
      hsame₂.nMPTCacheHight.trans hsame₁.nMPTCacheHight⟩, ?_⟩
    rcases hactive with ⟨hactive, rfl⟩ | hactive
    · exact hactive
    · exact hactive
  constructor
  · apply (initialized_completes (st.fMPTinit = true)).1.bind
    intro st₁ h₁
    apply (initialized_completes (st₁.nMPTActiveHight = st₁.height)).1.bind
    intro st₂ h₂
    obtain ⟨hsame, hactive⟩ := hready st₁ st₂ h₁ h₂
    rw [requireThat_pos hactive, ok_bind]
    obtain ⟨happly, hadvanced⟩ := applyHotBlock_completes (by rwa [hsame.disk]) hactive
    apply happly.bind
    intro st₃ h₃
    have h := hadvanced st₃ h₃
    have hheight : st₃.height = st₂.height := VersionState.height_congr h.disk
    rw [requireThat_pos (by rw [h.nMPTActiveHight, hheight])]
    exact completes_ok _
  · intro r st' hrun
    obtain ⟨st₁, h₁, hrun⟩ := bind_eq_ok_iff.mp hrun
    obtain ⟨st₂, h₂, hrun⟩ := bind_eq_ok_iff.mp hrun
    obtain ⟨-, hrun⟩ := unit_bind_eq_ok_iff.mp hrun
    obtain ⟨st₃, h₃, hrun⟩ := bind_eq_ok_iff.mp hrun
    obtain ⟨-, heq⟩ := unit_bind_eq_ok_iff.mp hrun
    obtain ⟨-, rfl⟩ := Prod.mk.inj (Except.ok.inj heq)
    obtain ⟨hsame, hactive⟩ := hready st₁ st₂ h₁ h₂
    exact Advanced.of_sameCache hsame ((applyHotBlock_completes (by rwa [hsame.disk]) hactive).2 _ h₃)

end FirstTrie

section SecondTrie

/-- From one state to another, slots up to `b` were filled, and the height of the second trie has grown
with them. -/
structure Grows (b : ℕ) (st st' : VersionState sha256) : Prop where
  disk : st'.disk = st.disk
  nMPTCacheHight : st.nMPTCacheHight ≤ st'.nMPTCacheHight
  above : ∀ j, b < j → st'.mptList j = st.mptList j
  keep : ∀ j, st.mptList j ≠ [] → st'.mptList j ≠ []
  fresh : ∀ j, st.mptList j = [] → st'.mptList j ≠ [] → j ≤ st'.nMPTCacheHight

lemma Grows.refl (b : ℕ) (st : VersionState sha256) : Grows b st st :=
  ⟨rfl, le_rfl, fun _ _ => rfl, fun _ h => h, fun _ h h' => absurd h h'⟩

lemma Grows.trans {b : ℕ} (h : Grows b st₁ st₂) (h' : Grows b st₂ st₃) : Grows b st₁ st₃ where
  disk := h'.disk.trans h.disk
  nMPTCacheHight := h.nMPTCacheHight.trans h'.nMPTCacheHight
  above j hj := (h'.above j hj).trans (h.above j hj)
  keep j hj := h'.keep j (h.keep j hj)
  fresh j hj hj' := by
    by_cases hmid : st₂.mptList j = []
    · exact h'.fresh j hmid hj'
    · exact (h.fresh j hj hmid).trans h'.nMPTCacheHight

lemma Grows.mono {b b' : ℕ} (h : Grows b st st') (hb : b ≤ b') : Grows b' st st' :=
  ⟨h.disk, h.nMPTCacheHight, fun j hj => h.above j (by omega), h.keep, h.fresh⟩

lemma grows_storeCache (hroot : ∀ mpt, root mpt ≠ []) (b : ℕ) (mpt : Trie) :
    Grows b st (st.storeCache root b mpt) where
  disk := rfl
  nMPTCacheHight := by
    rw [VersionState.storeCache_nMPTCacheHight]
    exact le_max_left _ _
  above j hj := update_of_ne (by omega) ..
  keep j hj := by
    show Function.update st.mptList b (root mpt) j ≠ []
    by_cases hjb : j = b
    · rw [hjb, update_self]
      exact hroot mpt
    · rwa [update_of_ne hjb]
  fresh j hj hj' := by
    rw [VersionState.storeCache_nMPTCacheHight]
    have hjb : j = b := by
      by_contra hne
      exact hj' ((update_of_ne hne ..).trans hj)
    rw [hjb]
    exact le_max_right _ _

lemma slot_storeCache (b : ℕ) (mpt : Trie) : (st.storeCache root b mpt).mptList b = root mpt :=
  update_self ..

lemma grows_foldlM {ι : Type} {step : VersionState sha256 → ι → Except Stop (VersionState sha256)}
    {l : List ι} {b : ℕ} (hstep : ∀ st, ∀ i ∈ l, ∀ st', step st i = .ok st' → Grows b st st')
    (hrun : l.foldlM step st = .ok st') : Grows b st st' := by
  induction l generalizing st with
  | nil =>
    obtain rfl := Except.ok.inj hrun
    exact Grows.refl b st
  | cons i l ih =>
    rw [foldlM_cons] at hrun
    obtain ⟨mid, hmid, hrest⟩ := bind_eq_ok_iff.mp hrun
    exact (hstep st i mem_cons_self mid hmid).trans
      (ih (fun st j hj => hstep st j (mem_cons_of_mem _ hj)) hrest)

lemma grows_cacheGetNextRoot (hroot : ∀ mpt, root mpt ≠ []) {r : Str}
    (hrun : cacheGetNextRootMerkelPatriciaTree index root fuel st best = .ok (r, st')) :
    Grows (best + 1) st st' ∧ st'.mptList (best + 1) ≠ [] := by
  induction fuel generalizing st st' best r with
  | zero => cases hrun
  | succ fuel ih =>
    by_cases hslot : st.mptList (best + 1) = []
    swap
    · rw [cacheGetNextRoot_of_cached hslot] at hrun
      obtain ⟨-, rfl⟩ := Prod.mk.inj (Except.ok.inj hrun)
      exact ⟨Grows.refl _ st, hslot⟩
    by_cases hyoung : best + 1 ≤ MIN_MUTABLETX_AGE
    · rw [cacheGetNextRoot_of_young hslot hyoung] at hrun
      obtain ⟨-, rfl⟩ := Prod.mk.inj (Except.ok.inj hrun)
      exact ⟨grows_storeCache hroot _ _, by rw [slot_storeCache]; exact hroot _⟩
    rw [not_le] at hyoung
    by_cases hfar : st.nMPTCacheHight + 100 < best + 1
    · rw [cacheGetNextRoot_of_far hslot hyoung hfar] at hrun
      obtain ⟨mid, hfold, heq⟩ := map_eq_ok_iff.mp hrun
      obtain ⟨-, rfl⟩ := Prod.mk.inj heq
      have hempty : Grows (best + 1) st { st with mptCache := .empty } :=
        ⟨rfl, le_rfl, fun _ _ => rfl, fun _ h => h, fun _ h h' => absurd h h'⟩
      have hmid : Grows (best + 1) { st with mptCache := .empty } mid := by
        refine grows_foldlM ?_ hfold
        intro st k hk st' hstep
        obtain ⟨-, hstep⟩ := unit_bind_eq_ok_iff.mp hstep
        obtain ⟨⟨r', mid'⟩, hcall, heq⟩ := bind_eq_ok_iff.mp hstep
        obtain rfl := Except.ok.inj heq
        rw [mem_range'_1] at hk
        exact (ih hcall).1.mono (by omega)
      exact ⟨(hempty.trans hmid).trans (grows_storeCache hroot _ _), by
        rw [slot_storeCache]
        exact hroot _⟩
    · rw [cacheGetNextRoot_of_near hslot hyoung (not_lt.mp hfar)] at hrun
      obtain ⟨mid, hmid, hhot⟩ := bind_eq_ok_iff.mp hrun
      obtain ⟨mpt, -, heq⟩ := bind_eq_ok_iff.mp hhot
      obtain ⟨-, rfl⟩ := Prod.mk.inj (Except.ok.inj heq)
      have hgrows : Grows (best + 1) st mid := by
        by_cases hlast : best = st.nMPTCacheHight
        · rw [if_pos hlast] at hmid
          obtain rfl := Except.ok.inj hmid
          exact Grows.refl _ st
        · rw [if_neg hlast] at hmid
          obtain ⟨⟨r', mid'⟩, hcall, heq'⟩ := bind_eq_ok_iff.mp hmid
          obtain rfl := Except.ok.inj heq'
          exact (ih hcall).1.mono (by omega)
      exact ⟨hgrows.trans (grows_storeCache hroot _ _), by
        rw [slot_storeCache]
        exact hroot _⟩

lemma completes_hotStep (disk : List (CBlock sha256)) (b : ℕ) (mpt : Trie) :
    Completes (hotStep index disk b mpt) := by
  unfold hotStep
  cases disk[b]? with
  | none => exact completes_ok _
  | some block =>
    dsimp only
    rw [checkBlockUChain_nextMPTRoot (by simp [MIN_MUTABLETX_AGE])]
    exact (completes_ofScan _).bind (fun _ _ => completes_ok _)

lemma completes_of_near (hnear : st.mptList (best + 1) ≠ [] ∨ best < st.nMPTCacheHight + 100)
    (hfuel : best < fuel) : Completes (cacheGetNextRootMerkelPatriciaTree index root fuel st best) := by
  have hMIN : MIN_MUTABLETX_AGE = 100 := rfl
  induction fuel generalizing best with
  | zero => omega
  | succ fuel ih =>
    by_cases hslot : st.mptList (best + 1) = []
    swap
    · rw [cacheGetNextRoot_of_cached hslot]
      exact completes_ok _
    have hlt := hnear.resolve_left (not_not.mpr hslot)
    by_cases hyoung : best + 1 ≤ MIN_MUTABLETX_AGE
    · rw [cacheGetNextRoot_of_young hslot hyoung]
      exact completes_ok _
    rw [cacheGetNextRoot_of_near hslot (not_le.mp hyoung) hlt]
    apply Completes.bind
    · by_cases hlast : best = st.nMPTCacheHight
      · rw [if_pos hlast]
        exact completes_ok _
      · rw [if_neg hlast]
        exact (ih (Or.inr (by omega)) (by omega)).bind (fun _ _ => completes_ok _)
    · intro mid _
      exact (completes_hotStep _ _ _).bind (fun _ _ => completes_ok _)

/-- Every empty slot up to `best + 1` that is far above the second trie has another empty slot at most
100 heights below it, or the slot of the call is filled. -/
def Ends (st : VersionState sha256) (best : ℕ) : Prop :=
  st.mptList (best + 1) ≠ [] ∨ ∀ k ≤ best, st.mptList (k + 1) = [] →
    max st.nMPTCacheHight 100 + 100 ≤ k → ∃ j < k, k ≤ j + 100 ∧ st.mptList (j + 1) = []

/-- What the assertions on heights need. -/
structure Sound (st : VersionState sha256) : Prop where
  nonempty : 0 < st.disk.length
  young : st.mptList 100 ≠ [] → 100 ≤ st.nMPTCacheHight

/-- The loop that starts again has come to height `k`. -/
structure Progress (st₀ st : VersionState sha256) (k : ℕ) : Prop where
  disk : st.disk = st₀.disk
  nMPTCacheHight : st₀.nMPTCacheHight ≤ st.nMPTCacheHight
  counted : ∀ j, 99 ≤ j → j < k → st₀.mptList (j + 1) = [] → j + 1 ≤ st.nMPTCacheHight
  young : 100 ≤ k → 100 ≤ st.nMPTCacheHight
  above : ∀ j, k ≤ j → st.mptList (j + 1) = st₀.mptList (j + 1)

variable {st₀ : VersionState sha256} {k : ℕ}

lemma Progress.near (h : Progress st₀ st k) (hk : 99 ≤ k)
    (hends : st₀.mptList (k + 1) = [] → max st₀.nMPTCacheHight 100 + 100 ≤ k →
      ∃ j < k, k ≤ j + 100 ∧ st₀.mptList (j + 1) = []) :
    st.mptList (k + 1) ≠ [] ∨ k < st.nMPTCacheHight + 100 := by
  rw [h.above k le_rfl]
  by_cases hslot : st₀.mptList (k + 1) = []
  swap
  · exact Or.inl hslot
  refine Or.inr ?_
  by_contra hfar
  have hhight := h.nMPTCacheHight
  have hyoung := h.young
  obtain ⟨j, hjk, hkj, hj⟩ := hends hslot (by omega)
  have hcounted := h.counted j (by omega) hjk hj
  omega

lemma Progress.step (h : Progress st₀ st k) (hsound : Sound st₀) (hk : 99 ≤ k)
    (hgrows : Grows (k + 1) st st') (hslot : st'.mptList (k + 1) ≠ []) : Progress st₀ st' (k + 1) where
  disk := hgrows.disk.trans h.disk
  nMPTCacheHight := h.nMPTCacheHight.trans hgrows.nMPTCacheHight
  counted j hj hjk hempty := by
    rcases Nat.lt_succ_iff_lt_or_eq.mp hjk with hlt | rfl
    · exact (h.counted j hj hlt hempty).trans hgrows.nMPTCacheHight
    · exact hgrows.fresh (j + 1) (by rw [h.above j le_rfl, hempty]) hslot
  young hk' := by
    rcases lt_or_eq_of_le hk with hlt | rfl
    · exact (h.young hlt).trans hgrows.nMPTCacheHight
    · by_cases hempty : st.mptList 100 = []
      · exact hgrows.fresh 100 hempty hslot
      · rw [h.above 99 le_rfl] at hempty
        exact ((hsound.young hempty).trans h.nMPTCacheHight).trans hgrows.nMPTCacheHight
  above j hj := by
    rw [hgrows.above (j + 1) (by omega), h.above j (by omega)]

lemma Progress.completes (hroot : ∀ mpt, root mpt ≠ []) (hsound : Sound st₀) {n : ℕ}
    (h : Progress st₀ st k) (hk : 99 ≤ k) (hlt : k + n ≤ st₀.disk.length) (hfuel : k + n ≤ fuel)
    (hends : ∀ i, i < k + n → st₀.mptList (i + 1) = [] → max st₀.nMPTCacheHight 100 + 100 ≤ i →
      ∃ j < i, i ≤ j + 100 ∧ st₀.mptList (j + 1) = []) :
    Completes ((List.range' k n).foldlM (replayStep index root fuel) st) := by
  induction n generalizing k st with
  | zero => exact completes_ok st
  | succ n ih =>
    rw [range'_succ, foldlM_cons]
    apply Completes.bind
    · unfold replayStep
      rw [requireThat_pos (by rw [h.disk]; omega), ok_bind]
      exact (completes_of_near (h.near hk (hends k (by omega))) (by omega)).bind
        (fun _ _ => completes_ok _)
    · intro mid hstep
      obtain ⟨-, hstep⟩ := unit_bind_eq_ok_iff.mp hstep
      obtain ⟨⟨r, mid'⟩, hcall, heq⟩ := bind_eq_ok_iff.mp hstep
      obtain rfl := Except.ok.inj heq
      obtain ⟨hgrows, hslot⟩ := grows_cacheGetNextRoot hroot hcall
      exact ih (h.step hsound hk hgrows hslot) (by omega) (by omega) (by omega)
        (fun i hi => hends i (by omega))

lemma Ends.completes (h : Ends st best) (hroot : ∀ mpt, root mpt ≠ []) (hsound : Sound st)
    (hlt : best < st.disk.length) (hfuel : best + 2 ≤ fuel) :
    Completes (cacheGetNextRootMerkelPatriciaTree index root fuel st best) := by
  by_cases hnear : st.mptList (best + 1) ≠ [] ∨ best < st.nMPTCacheHight + 100
  · exact completes_of_near hnear (by omega)
  · rw [not_or, not_not, not_lt] at hnear
    obtain ⟨hslot, hfar⟩ := hnear
    obtain ⟨fuel, rfl⟩ := Nat.exists_eq_add_of_le' (show 1 ≤ fuel by omega)
    by_cases hyoung : best + 1 ≤ MIN_MUTABLETX_AGE
    · rw [cacheGetNextRoot_of_young hslot hyoung]
      exact completes_ok _
    rw [cacheGetNextRoot_of_far hslot (not_le.mp hyoung) (by omega)]
    have hstart : Progress st { st with mptCache := .empty } 99 :=
      ⟨rfl, le_rfl, fun _ _ _ _ => by omega, fun _ => by omega, fun _ _ => rfl⟩
    have hempties := h.resolve_left (not_not.mpr hslot)
    exact (hstart.completes hroot hsound le_rfl (by omega) (by omega)
      (fun i hi => hempties i (by omega))).map _

end SecondTrie

section Checks

lemma Ends.of_grows {b : ℕ} (h : Ends st best) (hgrows : Grows b st st') : Ends st' best := by
  rcases h with hslot | hempties
  · exact Or.inl (hgrows.keep _ hslot)
  refine Or.inr ?_
  intro k hk hslot hfar
  have hhight := hgrows.nMPTCacheHight
  have hslot₀ : st.mptList (k + 1) = [] := by
    by_contra hne
    exact hgrows.keep _ hne hslot
  obtain ⟨j, hjk, hkj, hj⟩ := hempties k hk hslot₀ (by omega)
  refine ⟨j, hjk, hkj, ?_⟩
  by_contra hne
  have hfresh := hgrows.fresh (j + 1) hj hne
  omega

lemma Ends.of_advanced (h : Ends st best) (hbest : best < st.height) (hadvanced : Advanced root st st') :
    Ends st' best := by
  have hlist : ∀ j ≤ best, st'.mptList (j + 1) = st.mptList (j + 1) :=
    fun j hj => hadvanced.mptList (j + 1) (by omega)
  unfold Ends
  rw [hlist best le_rfl, hadvanced.nMPTCacheHight]
  rcases h with hslot | hempties
  · exact Or.inl hslot
  · refine Or.inr ?_
    intro k hk hslot hfar
    rw [hlist k hk] at hslot
    obtain ⟨j, hjk, hkj, hj⟩ := hempties k hk hslot hfar
    exact ⟨j, hjk, hkj, by rw [hlist j (by omega), hj]⟩

lemma Sound.of_grows {b : ℕ} (h : Sound st) (hgrows : Grows b st st') : Sound st' where
  nonempty := by
    rw [hgrows.disk]
    exact h.nonempty
  young hslot := by
    by_cases hempty : st.mptList 100 = []
    · exact hgrows.fresh 100 hempty hslot
    · exact (h.young hempty).trans hgrows.nMPTCacheHight

lemma Sound.of_advanced (h : Sound st) (hadvanced : Advanced root st st') : Sound st' where
  nonempty := by
    rw [hadvanced.disk]
    exact h.nonempty
  young hslot := by
    have hMIN : MIN_MUTABLETX_AGE = 100 := rfl
    have hsame : st'.mptList 100 = st.mptList 100 := by
      by_cases hheight : 100 = st.height + 1
      · rw [hadvanced.young (by omega)]
      · exact hadvanced.mptList 100 hheight
    rw [hadvanced.nMPTCacheHight]
    exact h.young (by rwa [← hsame])

lemma advanceActiveHight_completes (hpos : 0 < st.disk.length) (hbest : best ≤ st.height) :
    (2 ≤ fuel → Completes (advanceActiveHight index root fuel st best)) ∧
      ∀ st', advanceActiveHight index root fuel st best = .ok st' →
        best < st.nMPTActiveHight ∧ st' = st ∨ st.nMPTActiveHight ≤ best ∧ Advanced root st st' := by
  obtain ⟨hcompletes, hadvanced⟩ :
      Completes (getNextRootMerkelPatriciaTree index root st) ∧ _ := getNextRoot_completes hpos
  cases fuel with
  | zero => exact ⟨fun h => by omega, fun st' hrun => by cases hrun⟩
  | succ fuel =>
    by_cases hle : st.nMPTActiveHight ≤ best
    swap
    · rw [advanceActiveHight_of_lt (not_le.mp hle)]
      refine ⟨fun _ => completes_ok st, ?_⟩
      intro st' hrun
      obtain rfl := Except.ok.inj hrun
      exact Or.inl ⟨not_le.mp hle, rfl⟩
    rw [advanceActiveHight, if_pos hle]
    -- after one round the trie is ahead of every block of the chain
    constructor
    · intro hfuel
      obtain ⟨fuel, rfl⟩ := Nat.exists_eq_add_of_le' (show 1 ≤ fuel by omega)
      apply hcompletes.bind
      rintro ⟨r, mid⟩ hrun
      have hactive := (hadvanced r mid hrun).nMPTActiveHight
      dsimp only
      rw [requireThat_pos (by omega), ok_bind, advanceActiveHight_of_lt (by omega)]
      exact completes_ok _
    · intro st' hrun
      obtain ⟨⟨r, mid⟩, hmid, hrun⟩ := bind_eq_ok_iff.mp hrun
      obtain ⟨-, hrun⟩ := unit_bind_eq_ok_iff.mp hrun
      have hactive := (hadvanced r mid hmid).nMPTActiveHight
      cases fuel with
      | zero => cases hrun
      | succ fuel =>
        rw [advanceActiveHight_of_lt (by omega)] at hrun
        obtain rfl := Except.ok.inj hrun
        exact Or.inr ⟨hle, hadvanced r mid hmid⟩

lemma ends_of_advanceActiveHight (hroot : ∀ mpt, root mpt ≠ []) (hsound : Sound st)
    (hbest : best ≤ st.height) (hends : best = st.height ∧ st.nMPTActiveHight ≤ best ∨ Ends st best)
    (hold : 100 < best + 1) (hrun : advanceActiveHight index root fuel st best = .ok mid) :
    mid.disk = st.disk ∧ Sound mid ∧ Ends mid best ∧ ∀ k < st.height, Ends st k → Ends mid k := by
  have hMIN : MIN_MUTABLETX_AGE = 100 := rfl
  rcases (advanceActiveHight_completes hsound.nonempty hbest).2 mid hrun with ⟨hahead, rfl⟩ | ⟨hle, hadvanced⟩
  · exact ⟨rfl, hsound, hends.resolve_left (fun h => by omega), fun _ _ h => h⟩
  · refine ⟨hadvanced.disk, hsound.of_advanced hadvanced, ?_, fun k hk h => h.of_advanced hk hadvanced⟩
    rcases lt_or_eq_of_le hbest with hbest' | rfl
    · exact (hends.resolve_left (fun h => by omega)).of_advanced hbest' hadvanced
    · refine Or.inl ?_
      rw [hadvanced.slot (by omega)]
      exact hroot _

lemma checkUChainVersion_completes (hroot : ∀ mpt, root mpt ≠ []) (hsound : Sound st)
    (hbest : best ≤ st.height) (hends : best = st.height ∧ st.nMPTActiveHight ≤ best ∨ Ends st best)
    (block : CBlock sha256) :
    (best + 2 ≤ fuel → Completes (checkUChainVersion index root fuel st block best)) ∧
      ∀ fVersion st', checkUChainVersion index root fuel st block best = .ok (fVersion, st') →
        st'.disk = st.disk ∧ Sound st' ∧ ∀ k < st.height, Ends st k → Ends st' k := by
  by_cases hold : 100 < best + 1
  swap
  · unfold checkUChainVersion
    rw [if_neg hold]
    refine ⟨fun _ => completes_ok _, ?_⟩
    intro fVersion st' hrun
    obtain ⟨-, rfl⟩ := Prod.mk.inj (Except.ok.inj hrun)
    exact ⟨rfl, hsound, fun _ _ h => h⟩
  have hlt : best < st.disk.length := by
    have := hsound.nonempty
    unfold VersionState.height at hbest
    omega
  have hloop : 2 ≤ fuel → Completes (advanceActiveHight index root fuel st best) :=
    (advanceActiveHight_completes hsound.nonempty hbest).1
  unfold checkUChainVersion predictMPTRoot
  rw [if_pos hold]
  constructor
  · intro hfuel
    apply Completes.bind
    · apply (hloop (by omega)).bind
      intro mid hrun
      obtain ⟨hdisk, hsound', hends', -⟩ := ends_of_advanceActiveHight hroot hsound hbest hends hold hrun
      exact hends'.completes hroot hsound' (by rwa [hdisk]) hfuel
    · intro _ _
      exact completes_ok _
  · intro fVersion st' hrun
    obtain ⟨⟨r, st''⟩, hpredict, heq⟩ := bind_eq_ok_iff.mp hrun
    obtain ⟨-, rfl⟩ := Prod.mk.inj (Except.ok.inj heq)
    obtain ⟨mid, hrun, hcache⟩ := bind_eq_ok_iff.mp hpredict
    obtain ⟨hdisk, hsound', -, hkeep⟩ := ends_of_advanceActiveHight hroot hsound hbest hends hold hrun
    obtain ⟨hgrows, -⟩ := grows_cacheGetNextRoot hroot hcache
    exact ⟨hgrows.disk.trans hdisk, hsound'.of_grows hgrows,
      fun k hk h => (hkeep k hk h).of_grows hgrows⟩

end Checks

section Calls

/-- The calls that reach the tries. -/
inductive VersionCall (sha256 : Bytes → Uint256) where
  | connectTip (block : CBlock sha256) (valid : Bool)
  | disconnectTip
  | createNewBlock (template : CBlock sha256) (reached : Bool)
  | testBlockValidity (block : CBlock sha256)
  | updateHotBlock
  | verifyDB (nCheckLevel pindexState : ℕ) (valid : ℕ → Bool)

/-- One call of the node. -/
def runCall (index : Uint256 → Option ℕ) (root : Trie → Str) (fuel : ℕ) (st : VersionState sha256) :
    VersionCall sha256 → Except Stop (VersionState sha256)
  | .connectTip block valid => (connectTip index root fuel st block valid).map Prod.snd
  | .disconnectTip => .ok (disconnectTip st)
  | .createNewBlock template reached => (createNewBlock index root fuel st template reached).map Prod.snd
  | .testBlockValidity block => (testBlockValidity index root fuel st block).map Prod.snd
  | .updateHotBlock => updateHotBlock index root st
  | .verifyDB nCheckLevel pindexState valid => verifyDB index root fuel st nCheckLevel pindexState valid

def Allowed (st : VersionState sha256) : VersionCall sha256 → Prop
  | .disconnectTip => 2 ≤ st.disk.length
  | _ => True

def CallEnds (st : VersionState sha256) : VersionCall sha256 → Prop
  | .connectTip _ _ => st.nMPTActiveHight ≤ st.height ∨ Ends st st.height
  | .testBlockValidity _ => st.nMPTActiveHight ≤ st.height ∨ Ends st st.height
  | .verifyDB _ pindexState _ => ∀ best, pindexState ≤ best → best < st.height → Ends st best
  | _ => True

/-- Runs of calls, each of which meets `P`. -/
inductive CallRun (index : Uint256 → Option ℕ) (root : Trie → Str)
    (P : VersionState sha256 → VersionCall sha256 → Prop) : VersionState sha256 → Prop where
  | startUp {disk : List (CBlock sha256)} {st : VersionState sha256} :
      0 < disk.length → startUp index disk = .ok st → CallRun index root P st
  | call {st st' : VersionState sha256} {call : VersionCall sha256} {fuel : ℕ} :
      CallRun index root P st → Allowed st call → P st call → runCall index root fuel st call = .ok st' →
      CallRun index root P st'

variable {index : Uint256 → Option ℕ} {root : Trie → Str} {st st' : VersionState sha256} {fuel : ℕ}

lemma connectTip_completes (hroot : ∀ mpt, root mpt ≠ []) (hsound : Sound st)
    (hends : st.nMPTActiveHight ≤ st.height ∨ Ends st st.height) (block : CBlock sha256) (valid : Bool) :
    (st.height + 2 ≤ fuel → Completes (connectTip index root fuel st block valid)) ∧
      ∀ connected st', connectTip index root fuel st block valid = .ok (connected, st') → Sound st' := by
  obtain ⟨hcompletes, hafter⟩ :
      (st.height + 2 ≤ fuel → Completes (checkUChainVersion index root fuel st block st.height)) ∧ _ :=
    checkUChainVersion_completes hroot hsound le_rfl (hends.imp_left (⟨rfl, ·⟩)) block
  constructor
  · intro hfuel
    apply (hcompletes hfuel).bind
    rintro ⟨fVersion, mid⟩ -
    dsimp only
    split_ifs <;> exact completes_ok _
  · intro connected st' hrun
    obtain ⟨⟨fVersion, mid⟩, hcheck, hrun⟩ := bind_eq_ok_iff.mp hrun
    obtain ⟨-, hsound', -⟩ := hafter fVersion mid hcheck
    dsimp only at hrun
    split_ifs at hrun
    · obtain ⟨-, rfl⟩ := Prod.mk.inj (Except.ok.inj hrun)
      exact ⟨by simp, hsound'.young⟩
    · obtain ⟨-, rfl⟩ := Prod.mk.inj (Except.ok.inj hrun)
      exact hsound'

lemma ends_of_nextRoot (hroot : ∀ mpt, root mpt ≠ []) (hsound : Sound st) {r : Str}
    (hrun : getNextRootMerkelPatriciaTree index root st = .ok (r, st')) :
    st'.height = st.height ∧ Sound st' ∧ Ends st' st'.height := by
  have h := (getNextRoot_completes hsound.nonempty).2 r st' hrun
  have hheight : st'.height = st.height := VersionState.height_congr h.disk
  refine ⟨hheight, hsound.of_advanced h, ?_⟩
  rw [hheight]
  by_cases hold : MIN_MUTABLETX_AGE < st.height + 1
  · refine Or.inl ?_
    rw [h.slot hold]
    exact hroot _
  · refine Or.inr ?_
    intro k hk _ hfar
    have : MIN_MUTABLETX_AGE = 100 := rfl
    omega

lemma createNewBlock_completes (hroot : ∀ mpt, root mpt ≠ []) (hsound : Sound st)
    (template : CBlock sha256) (reached : Bool) :
    (st.height + 2 ≤ fuel → Completes (createNewBlock index root fuel st template reached)) ∧
      ∀ hash st', createNewBlock index root fuel st template reached = .ok (hash, st') → Sound st' := by
  have hcompletes : Completes (getNextRootMerkelPatriciaTree index root st) :=
    (getNextRoot_completes hsound.nonempty).1
  constructor
  · intro hfuel
    apply hcompletes.bind
    rintro ⟨r, mid⟩ hrun
    obtain ⟨hheight, hsound', hends'⟩ := ends_of_nextRoot hroot hsound hrun
    apply Completes.bind
    · cases reached with
      | true =>
        exact ((checkUChainVersion_completes hroot hsound' le_rfl (Or.inr hends') _).1 (by omega)).bind
          (fun _ _ => completes_ok _)
      | false => exact completes_ok _
    · intro _ _
      exact completes_ok _
  · intro hash st' hrun
    obtain ⟨⟨r, mid⟩, hnext, hrun⟩ := bind_eq_ok_iff.mp hrun
    obtain ⟨st₁, hcheck, heq⟩ := bind_eq_ok_iff.mp hrun
    obtain ⟨-, rfl⟩ := Prod.mk.inj (Except.ok.inj heq)
    obtain ⟨hheight, hsound', hends'⟩ := ends_of_nextRoot hroot hsound hnext
    cases reached with
    | true =>
      obtain ⟨⟨fVersion, st₂⟩, hversion, heq'⟩ := bind_eq_ok_iff.mp hcheck
      obtain rfl := Except.ok.inj heq'
      exact ((checkUChainVersion_completes hroot hsound' le_rfl (Or.inr hends') _).2 _ _ hversion).2.1
    | false =>
      obtain rfl := Except.ok.inj hcheck
      exact hsound'

lemma length_rewriteDisk {disk disk' : List (CBlock sha256)} {hight : ℕ} {hash : Uint256}
    {newTX : CTransaction sha256} (h : rewriteDisk disk hight hash newTX = some disk') :
    disk'.length = disk.length := by
  obtain ⟨block, -, h⟩ := bind_eq_some_iff.mp h
  obtain ⟨block', -, h⟩ := bind_eq_some_iff.mp h
  obtain rfl := Option.some.inj h
  exact length_set

lemma length_nextVersion {mode : Mode} {m : Mutant} {oldTX : CTransaction sha256} {hight : ℕ}
    {sc sc' : ScanState sha256} (h : nextVersion mode sc m oldTX hight = some sc') :
    sc'.disk.length = sc.disk.length := by
  unfold nextVersion at h
  by_cases hseen : m.txSID ∈ sc.mutantInBlock
  · rw [if_pos hseen] at h
    obtain rfl := Option.some.inj h
    rfl
  · rw [if_neg hseen] at h
    obtain ⟨newTX, -, h⟩ := bind_eq_some_iff.mp h
    obtain ⟨disk, hdisk, h⟩ := bind_eq_some_iff.mp h
    obtain rfl := Option.some.inj h
    by_cases hmode : mode = .updatehotBlock
    · rw [if_pos hmode] at hdisk
      exact length_rewriteDisk hdisk
    · rw [if_neg hmode] at hdisk
      obtain rfl := Option.some.inj hdisk
      rfl

lemma length_processOutput {b : ℕ} {mode : Mode} {txout : CTxOut} {sc sc' : ScanState sha256}
    (h : processOutput index mode b sc txout = some sc') : sc'.disk.length = sc.disk.length := by
  unfold processOutput at h
  split at h
  · cases h
  split at h
  · obtain rfl := Option.some.inj h
    rfl
  split at h
  · obtain rfl := Option.some.inj h
    rfl
  split at h
  · obtain rfl := Option.some.inj h
    unfold createVersion
    dsimp only
    split_ifs <;> rfl
  · exact length_nextVersion h

lemma length_disk_of_scan {b : ℕ} {mode : Mode} {outputs : List CTxOut} {sc sc' : ScanState sha256}
    (h : outputs.foldlM (processOutput index mode b) sc = some sc') :
    sc'.disk.length = sc.disk.length := by
  induction outputs generalizing sc with
  | nil =>
    obtain rfl := Option.some.inj h
    rfl
  | cons txout outputs ih =>
    rw [foldlM_cons] at h
    obtain ⟨mid, hmid, hrest⟩ := bind_eq_some_iff.mp h
    rw [ih hrest, length_processOutput hmid]

lemma updateHotBlock_completes (hsound : Sound st) :
    Completes (updateHotBlock index root st) ∧
      ∀ st', updateHotBlock index root st = .ok st' → Sound st' := by
  have hMIN : MIN_MUTABLETX_AGE = 100 := rfl
  have hpos := hsound.nonempty
  by_cases hold : MIN_MUTABLETX_AGE < st.height
  swap
  · rw [updateHotBlock_of_young hold]
    refine ⟨completes_ok _, ?_⟩
    intro st' hrun
    obtain rfl := Except.ok.inj hrun
    exact hsound
  obtain ⟨b, hb⟩ : ∃ b, st.height - MIN_MUTABLETX_AGE = b + 1 :=
    ⟨st.height - MIN_MUTABLETX_AGE - 1, by omega⟩
  have hlt : b + 1 < st.disk.length := by
    unfold VersionState.height at *
    omega
  rw [updateHotBlock_eq_map hb (getElem?_eq_getElem hlt)]
  refine ⟨(completes_ofScan _).map _, ?_⟩
  intro st' hrun
  obtain ⟨sc, hfold, rfl⟩ := map_ofScan_eq_ok_iff.mp hrun
  refine ⟨by rw [length_disk_of_scan hfold]; exact hpos, ?_⟩
  intro hslot
  exact hsound.young ((update_of_ne (by omega) ..).symm.trans_ne hslot)

lemma reconnectBlocks_completes (hroot : ∀ mpt, root mpt ≠ []) (valid : ℕ → Bool) {bests : List ℕ}
    (hsound : Sound st) (hends : ∀ best ∈ bests, best < st.height ∧ Ends st best) :
    (st.height + 2 ≤ fuel → Completes (reconnectBlocks index root fuel valid st bests)) ∧
      ∀ connected st', reconnectBlocks index root fuel valid st bests = .ok (connected, st') →
        st'.disk = st.disk ∧ Sound st' := by
  induction bests generalizing st with
  | nil =>
    refine ⟨fun _ => completes_ok _, ?_⟩
    intro connected st' hrun
    obtain ⟨-, rfl⟩ := Prod.mk.inj (Except.ok.inj hrun)
    exact ⟨rfl, hsound⟩
  | cons best bests ih =>
    obtain ⟨⟨hbest, hends₀⟩, hrest⟩ := forall_mem_cons.mp hends
    rw [reconnectBlocks]
    cases hblock : st.disk[best + 1]? with
    | none =>
      refine ⟨fun _ => completes_ok _, ?_⟩
      intro connected st' hrun
      obtain ⟨-, rfl⟩ := Prod.mk.inj (Except.ok.inj hrun)
      exact ⟨rfl, hsound⟩
    | some block =>
      obtain ⟨hcompletes, hafter⟩ :
          (best + 2 ≤ fuel → Completes (checkUChainVersion index root fuel st block best)) ∧ _ :=
        checkUChainVersion_completes hroot hsound hbest.le (Or.inr hends₀) block
      have hnext : ∀ fVersion mid, checkUChainVersion index root fuel st block best = .ok (fVersion, mid) →
          mid.disk = st.disk ∧ Sound mid ∧
          (st.height + 2 ≤ fuel → Completes (reconnectBlocks index root fuel valid mid bests)) ∧
          ∀ connected st', reconnectBlocks index root fuel valid mid bests = .ok (connected, st') →
            st'.disk = mid.disk ∧ Sound st' := by
        intro fVersion mid hrun
        obtain ⟨hdisk, hsound', hkeep⟩ := hafter fVersion mid hrun
        have hheight : mid.height = st.height := VersionState.height_congr hdisk
        rw [← hheight]
        refine ⟨hdisk, hsound', ih hsound' ?_⟩
        intro k hk
        rw [hheight]
        exact ⟨(hrest k hk).1, hkeep k (hrest k hk).1 (hrest k hk).2⟩
      constructor
      · intro hfuel
        apply (hcompletes (by omega)).bind
        rintro ⟨fVersion, mid⟩ hrun
        dsimp only
        split_ifs
        · exact (hnext fVersion mid hrun).2.2.1 hfuel
        · exact completes_ok _
      · intro connected st' hrun
        obtain ⟨⟨fVersion, mid⟩, hcheck, hrun⟩ := bind_eq_ok_iff.mp hrun
        obtain ⟨hdisk, hsound', -, hstep⟩ := hnext fVersion mid hcheck
        dsimp only at hrun
        split_ifs at hrun
        · obtain ⟨hdisk', hsound''⟩ := hstep connected st' hrun
          exact ⟨hdisk'.trans hdisk, hsound''⟩
        · obtain ⟨-, rfl⟩ := Prod.mk.inj (Except.ok.inj hrun)
          exact ⟨hdisk, hsound'⟩

lemma SameCache.sound (h : SameCache st st') (hsound : Sound st) : Sound st' := by
  refine ⟨by rw [h.disk]; exact hsound.nonempty, ?_⟩
  rw [h.mptList, h.nMPTCacheHight]
  exact hsound.young

lemma verifyDB_completes (hroot : ∀ mpt, root mpt ≠ []) (hsound : Sound st)
    (nCheckLevel pindexState : ℕ) (valid : ℕ → Bool)
    (hends : ∀ best, pindexState ≤ best → best < st.height → Ends st best) :
    (st.height + 2 ≤ fuel → Completes (verifyDB index root fuel st nCheckLevel pindexState valid)) ∧
      ∀ st', verifyDB index root fuel st nCheckLevel pindexState valid = .ok st' → Sound st' := by
  unfold verifyDB
  by_cases hlevel : nCheckLevel < 4
  · rw [if_pos hlevel]
    refine ⟨fun _ => completes_ok _, ?_⟩
    intro st' hrun
    obtain rfl := Except.ok.inj hrun
    exact hsound
  rw [if_neg hlevel]
  obtain ⟨hcompletes, hafter⟩ : (st.height + 2 ≤ fuel → Completes (reconnectBlocks index root fuel valid
      st (List.range' pindexState (st.height - pindexState)))) ∧ _ := by
    apply reconnectBlocks_completes hroot valid hsound
    intro best hbest
    rw [mem_range'_1] at hbest
    exact ⟨by omega, hends best hbest.1 (by omega)⟩
  constructor
  · intro hfuel
    apply (hcompletes hfuel).bind
    rintro ⟨connected, mid⟩ -
    dsimp only
    split_ifs
    · apply completes_initMerkelPatriciaTree.bind
      intro mid' _
      apply Completes.bind
      · unfold requireThat
        split_ifs
        · exact completes_ok _
        · exact ⟨by simp, by simp⟩
      · intro _ _
        exact completes_ok _
    · exact completes_ok _
  · intro st' hrun
    obtain ⟨⟨connected, mid⟩, hreconnect, hrun⟩ := bind_eq_ok_iff.mp hrun
    obtain ⟨-, hsound'⟩ := hafter connected mid hreconnect
    dsimp only at hrun
    split_ifs at hrun
    · obtain ⟨mid', hinit, hrun⟩ := bind_eq_ok_iff.mp hrun
      obtain ⟨-, heq⟩ := unit_bind_eq_ok_iff.mp hrun
      obtain rfl := Except.ok.inj heq
      exact (sameCache_initMerkelPatriciaTree hinit).1.sound hsound'
    · obtain rfl := Except.ok.inj hrun
      exact hsound'

lemma runCall_completes (hroot : ∀ mpt, root mpt ≠ []) (hsound : Sound st) {call : VersionCall sha256}
    (hallowed : Allowed st call) (hends : CallEnds st call) :
    (st.height + 2 ≤ fuel → Completes (runCall index root fuel st call)) ∧
      ∀ st', runCall index root fuel st call = .ok st' → Sound st' := by
  cases call with
  | connectTip block valid =>
    obtain ⟨hcompletes, hafter⟩ :
        (st.height + 2 ≤ fuel → Completes (connectTip index root fuel st block valid)) ∧ _ :=
      connectTip_completes hroot hsound hends block valid
    refine ⟨fun hfuel => (hcompletes hfuel).map _, ?_⟩
    intro st' hrun
    obtain ⟨⟨connected, st''⟩, htip, rfl⟩ := map_eq_ok_iff.mp hrun
    exact hafter connected st'' htip
  | disconnectTip =>
    refine ⟨fun _ => completes_ok _, ?_⟩
    intro st' hrun
    obtain rfl := Except.ok.inj hrun
    refine ⟨?_, hsound.young⟩
    show 0 < st.disk.dropLast.length
    have h2 : 2 ≤ st.disk.length := hallowed
    rw [length_dropLast]
    omega
  | createNewBlock template reached =>
    obtain ⟨hcompletes, hafter⟩ :
        (st.height + 2 ≤ fuel → Completes (createNewBlock index root fuel st template reached)) ∧ _ :=
      createNewBlock_completes hroot hsound template reached
    refine ⟨fun hfuel => (hcompletes hfuel).map _, ?_⟩
    intro st' hrun
    obtain ⟨⟨hash, st''⟩, hcreate, rfl⟩ := map_eq_ok_iff.mp hrun
    exact hafter hash st'' hcreate
  | testBlockValidity block =>
    obtain ⟨hcompletes, hafter⟩ :
        (st.height + 2 ≤ fuel → Completes (checkUChainVersion index root fuel st block st.height)) ∧ _ :=
      checkUChainVersion_completes hroot hsound le_rfl (hends.imp_left (⟨rfl, ·⟩)) block
    refine ⟨fun hfuel => (hcompletes hfuel).map _, ?_⟩
    intro st' hrun
    obtain ⟨⟨fVersion, st''⟩, htest, rfl⟩ := map_eq_ok_iff.mp hrun
    exact (hafter fVersion st'' htest).2.1
  | updateHotBlock =>
    obtain ⟨hcompletes, hafter⟩ : Completes (updateHotBlock index root st) ∧ _ :=
      updateHotBlock_completes hsound
    exact ⟨fun _ => hcompletes, hafter⟩
  | verifyDB nCheckLevel pindexState valid =>
    exact verifyDB_completes hroot hsound nCheckLevel pindexState valid hends

lemma sound_startUp {disk : List (CBlock sha256)} (hpos : 0 < disk.length)
    (h : startUp index disk = .ok st) : Sound st :=
  (sameCache_initMerkelPatriciaTree h).1.sound ⟨hpos, fun hslot => absurd rfl hslot⟩

lemma CallRun.sound (h : CallRun index root CallEnds st) (hroot : ∀ mpt, root mpt ≠ []) : Sound st := by
  induction h with
  | startUp hpos hstart => exact sound_startUp hpos hstart
  | call _ hallowed hends hrun ih => exact (runCall_completes hroot ih hallowed hends).2 _ hrun

/-- In every run whose version checks meet the condition, no call fails an assertion on heights, and
every call ends. -/
theorem runCall_completes_of_callRun (sha256 : Bytes → Uint256) (index : Uint256 → Option ℕ)
    (root : Trie → Str) (hroot : ∀ mpt, root mpt ≠ []) (st : VersionState sha256)
    (hrun : CallRun index root CallEnds st) (call : VersionCall sha256) (hallowed : Allowed st call)
    (hends : CallEnds st call) (fuel : ℕ) (hfuel : st.height + 2 ≤ fuel) :
    runCall index root fuel st call ≠ .error .hight ∧ runCall index root fuel st call ≠ .error .depth :=
  (runCall_completes hroot (hrun.sound hroot) hallowed hends).1 hfuel

end Calls

section NeverEnds

variable {sha256 : Bytes → Uint256} {index : Uint256 → Option ℕ} {root : Trie → Str}
  {st : VersionState sha256} {fuel : ℕ}

lemma replayStep_zero {hight : ℕ} (hlt : hight < st.disk.length) :
    replayStep index root 0 st hight = .error .depth := by
  unfold replayStep
  rw [requireThat_pos hlt]
  rfl

lemma replay_of_cached {l : List ℕ}
    (h : ∀ k ∈ l, k < st.disk.length ∧ st.mptList (k + 1) ≠ []) :
    l.foldlM (replayStep index root (fuel + 1)) st = .ok st := by
  induction l with
  | nil => rfl
  | cons k l ih =>
    obtain ⟨⟨hlt, hslot⟩, hrest⟩ := forall_mem_cons.mp h
    rw [foldlM_cons, replayStep_eq hlt (cacheGetNextRoot_of_cached hslot), ok_bind]
    exact ih hrest

/-- No computed slot is near enough to the empty one. -/
structure Stuck (st : VersionState sha256) : Prop where
  disk : 200 < st.disk.length
  nMPTCacheHight : st.nMPTCacheHight = 100
  filled : ∀ k, 100 ≤ k → k ≤ 200 → st.mptList k ≠ []
  slot : st.mptList 201 = []

lemma Stuck.replay (h : Stuck st) :
    (List.range' 99 101).foldlM (replayStep index root (fuel + 1)) st = .ok st := by
  apply replay_of_cached
  intro k hk
  have hdisk := h.disk
  rw [mem_range'_1] at hk
  exact ⟨by omega, h.filled (k + 1) (by omega) (by omega)⟩

lemma Stuck.depth (h : Stuck st) (fuel : ℕ) :
    cacheGetNextRootMerkelPatriciaTree index root fuel st 200 = .error .depth := by
  induction fuel generalizing st with
  | zero => rfl
  | succ fuel ih =>
    have hdisk := h.disk
    have hempty : Stuck { st with mptCache := .empty } := ⟨h.disk, h.nMPTCacheHight, h.filled, h.slot⟩
    rw [cacheGetNextRoot_of_far h.slot (by decide) (by rw [h.nMPTCacheHight]; decide)]
    cases fuel with
    | zero =>
      rw [show 200 + 1 - 99 = 101 + 1 from rfl, range'_succ, foldlM_cons,
        replayStep_zero (by show 99 < st.disk.length; omega)]
      rfl
    | succ fuel =>
      have hstep : replayStep index root (fuel + 1) { st with mptCache := .empty } (99 + 101) =
          .error .depth := by
        unfold replayStep
        rw [requireThat_pos (show 200 < st.disk.length by omega), ok_bind, ih hempty]
        rfl
      rw [show 200 + 1 - 99 = 101 + 1 from rfl, range'_1_concat, foldlM_append, hempty.replay,
        ok_bind, foldlM_cons, hstep]
      rfl

/-- The genesis block and `n` blocks with only a coinbase. -/
def quietChain (n : ℕ) : List (CBlock cSHA256) := genesisBlock :: minedBlocks 1 n

/-- A state with the empty trie, advanced to height 201, and the slots `lo` to 200 filled. -/
def quietState (n lo : ℕ) : VersionState cSHA256 :=
  ⟨quietChain n, Trie.empty, true, 201,
    fun k => if lo ≤ k ∧ k ≤ 200 then dataRoot Trie.empty else [], 0, Trie.empty⟩

def noIndex : Uint256 → Option ℕ := fun _ => none

lemma length_quietChain (n : ℕ) : (quietChain n).length = n + 1 := by
  simp [quietChain, minedBlocks]

lemma quietChain_succ (n : ℕ) : quietChain (n + 1) = quietChain n ++ [blockOf [minedTx (n + 1)]] := by
  simp [quietChain, minedBlocks, range'_1_concat, add_comm]

lemma getElem?_quietChain {n b : ℕ} (h1 : 1 ≤ b) (hb : b ≤ n) :
    (quietChain n)[b]? = some (blockOf [minedTx b]) := by
  obtain ⟨b, rfl⟩ := Nat.exists_eq_add_of_le' h1
  show (minedBlocks 1 n)[b]? = _
  rw [minedBlocks, getElem?_map, getElem?_range' (by omega)]
  simp [add_comm]

lemma height_quietState (n lo : ℕ) : (quietState n lo).height = n := by
  show (quietChain n).length - 1 = n
  rw [length_quietChain]
  rfl

lemma disconnectTip_quietState (n lo : ℕ) :
    disconnectTip (quietState (n + 1) lo) = quietState n lo := by
  have hdisk : (quietChain (n + 1)).dropLast = quietChain n := by
    rw [quietChain_succ, dropLast_concat]
  unfold disconnectTip quietState
  dsimp only
  rw [hdisk]

lemma mutantOutputs_quietChain {n c : ℕ} {block : CBlock cSHA256} (h1 : 1 ≤ c)
    (hblock : (quietChain n)[c]? = some block) : mutantOutputs block = [] := by
  have hlt := (List.getElem?_eq_some_iff.mp hblock).1
  rw [length_quietChain] at hlt
  obtain rfl := Option.some.inj ((getElem?_quietChain h1 (by omega)).symm.trans hblock)
  exact mutantOutputs_minedBlock c

lemma createTrie_quietChain (n : ℕ) : createTrie noIndex (quietChain n) Trie.empty = .ok Trie.empty := by
  have hread : ReadableUpTo (quietChain n) (aged (quietChain n)) := by
    intro c block h1 _ hblock
    rw [mutantOutputs_quietChain h1 hblock]
    simp
  rw [createTrie_eq hread, insertNewAll_of_present]
  intro key hkey
  obtain ⟨c, block, hash, h1, -, hblock, ⟨txout, hout, -⟩, -⟩ := mem_rebuildKeys.mp hkey
  rw [mutantOutputs_quietChain h1 hblock] at hout
  cases hout

lemma startUp_quietChain : startUp noIndex (quietChain 201) = .ok (quietState 201 201) := by
  have hlist : (fun _ => []) = fun k => if 201 ≤ k ∧ k ≤ 200 then dataRoot Trie.empty else [] := by
    funext k
    rw [if_neg (by omega)]
  have hlen := length_quietChain 201
  unfold startUp initMerkelPatriciaTree
  dsimp only
  rw [createTrie_quietChain, ok_bind, hlist]
  unfold VersionState.height quietState
  dsimp only
  rw [hlen]
  rfl

lemma updateHotBlock_quietState {n : ℕ} (h1 : 101 ≤ n) (h2 : n ≤ 200) :
    updateHotBlock noIndex dataRoot (quietState n (n + 1)) = .ok (quietState n n) := by
  have hage : (quietState n (n + 1)).height - MIN_MUTABLETX_AGE = n - 101 + 1 := by
    rw [height_quietState, MIN_MUTABLETX_AGE]
    omega
  have hB : (quietState n (n + 1)).disk[n - 101 + 1]? = some (blockOf [minedTx (n - 101 + 1)]) :=
    getElem?_quietChain (by omega) (by omega)
  have hlist : Function.update (quietState n (n + 1)).mptList n (dataRoot Trie.empty) =
      (quietState n n).mptList := by
    funext k
    by_cases hk : k = n
    · subst hk
      rw [update_self]
      exact (if_pos ⟨le_rfl, h2⟩).symm
    · rw [update_of_ne hk]
      show (if n + 1 ≤ k ∧ k ≤ 200 then _ else _) = if n ≤ k ∧ k ≤ 200 then _ else _
      congr 1
      apply propext
      omega
  rw [updateHotBlock_of_quiet hage hB (mutantOutputs_minedBlock _), height_quietState]
  show Except.ok { quietState n (n + 1) with
    mptList := Function.update (quietState n (n + 1)).mptList n (dataRoot Trie.empty) } = _
  rw [hlist]
  rfl

lemma slot_quietState {n k : ℕ} (h1 : 101 ≤ k) (h2 : k ≤ 200) :
    (quietState n 101).mptList k = dataRoot Trie.empty := if_pos ⟨h1, h2⟩

lemma connectTip_quietState {n : ℕ} (h1 : 100 ≤ n) (h2 : n < 200) :
    connectTip noIndex dataRoot 1 (quietState n 101) (blockOf [minedTx (n + 1)]) true =
      .ok (true, quietState (n + 1) 101) := by
  have hslot := slot_quietState (n := n) (show 101 ≤ n + 1 by omega) (by omega)
  have hversion : (blockOf [minedTx (n + 1)]).hashUChainVersion.getHex = dataRoot Trie.empty := by
    show (BaseBlob.null 32).getHex = dataRoot Trie.empty
    decide +kernel
  have hpredict : predictMPTRoot noIndex dataRoot 1 (quietState n 101) n =
      .ok (dataRoot Trie.empty, quietState n 101) := by
    refine bind_eq_ok_iff.mpr ⟨_, advanceActiveHight_of_lt (show n < 201 by omega), ?_⟩
    rw [cacheGetNextRoot_of_cached (by rw [hslot]; exact dataRoot_ne_nil _), hslot]
  have hcheck : checkUChainVersion noIndex dataRoot 1 (quietState n 101) (blockOf [minedTx (n + 1)])
      (quietState n 101).height = .ok (true, quietState n 101) := by
    rw [height_quietState]
    unfold checkUChainVersion
    rw [if_pos (by omega), hpredict, ok_bind]
    dsimp only
    rw [hversion]
    simp [pure, Except.pure]
  rw [connectTip_of_check hcheck]
  have hdisk : (quietState n 101).disk ++ [blockOf [minedTx (n + 1)]] = quietChain (n + 1) :=
    (quietChain_succ n).symm
  simp only [Bool.and_self, if_true, hdisk]
  rfl

lemma callRun_disconnectTip {n lo : ℕ} (h : CallRun noIndex dataRoot (fun _ _ => True) (quietState (n + 1) lo)) :
    CallRun noIndex dataRoot (fun _ _ => True) (quietState n lo) := by
  have hallowed : Allowed (quietState (n + 1) lo) .disconnectTip := by
    show 2 ≤ (quietChain (n + 1)).length
    rw [length_quietChain]
    omega
  have hrun : runCall noIndex dataRoot 0 (quietState (n + 1) lo) .disconnectTip = .ok (quietState n lo) :=
    congrArg Except.ok (disconnectTip_quietState n lo)
  exact h.call hallowed trivial hrun

lemma callRun_down {i : ℕ} (hi : i ≤ 100) :
    CallRun noIndex dataRoot (fun _ _ => True) (quietState (200 - i) (201 - i)) := by
  induction i with
  | zero =>
    have hpos : 0 < (quietChain 201).length := by
      rw [length_quietChain]
      decide
    exact callRun_disconnectTip (.startUp hpos startUp_quietChain)
  | succ i ih =>
    have hupdate : runCall noIndex dataRoot 0 (quietState (200 - i) (201 - i)) .updateHotBlock =
        .ok (quietState (200 - i) (200 - i)) := by
      rw [show 201 - i = 200 - i + 1 by omega]
      exact updateHotBlock_quietState (by omega) (by omega)
    have hallowed : Allowed (quietState (200 - i) (201 - i)) .updateHotBlock := trivial
    have hafter := (ih (by omega)).call hallowed trivial hupdate
    rw [show 200 - i = 200 - (i + 1) + 1 by omega] at hafter
    rw [show 201 - (i + 1) = 200 - (i + 1) + 1 by omega]
    exact callRun_disconnectTip hafter

lemma callRun_up {i : ℕ} (hi : i ≤ 100) :
    CallRun noIndex dataRoot (fun _ _ => True) (quietState (100 + i) 101) := by
  induction i with
  | zero => exact callRun_down le_rfl
  | succ i ih =>
    have hconnect : runCall noIndex dataRoot 1 (quietState (100 + i) 101)
        (.connectTip (blockOf [minedTx (100 + i + 1)]) true) = .ok (quietState (100 + i + 1) 101) :=
      map_eq_ok_iff.mpr ⟨_, connectTip_quietState (by omega) (by omega), rfl⟩
    have hallowed : Allowed (quietState (100 + i) 101)
        (.connectTip (blockOf [minedTx (100 + i + 1)]) true) := trivial
    exact (ih (by omega)).call hallowed trivial hconnect

def stuckState : VersionState cSHA256 :=
  VersionState.storeCache { quietState 200 101 with mptCache := .empty } dataRoot 100 .empty

lemma mptList_stuckState {k : ℕ} (hk : k ≠ 100) : stuckState.mptList k = (quietState 200 101).mptList k :=
  update_of_ne hk _ _

lemma stuck_stuckState : Stuck stuckState where
  disk := by
    show 200 < (quietChain 200).length
    rw [length_quietChain]
    decide
  nMPTCacheHight := by
    rw [stuckState, VersionState.storeCache_nMPTCacheHight]
    rfl
  filled := by
    intro k h1 h2
    by_cases hk : k = 100
    · subst hk
      rw [stuckState, slot_storeCache]
      exact dataRoot_ne_nil _
    · rw [mptList_stuckState hk, slot_quietState (by omega) h2]
      exact dataRoot_ne_nil _
  slot := mptList_stuckState (by decide)

lemma replayStep_quietState (fuel : ℕ) :
    replayStep noIndex dataRoot (fuel + 1) { quietState 200 101 with mptCache := .empty } 99 =
      .ok stuckState := by
  have hlen : (quietChain 200).length = 201 := length_quietChain 200
  have hyoung : cacheGetNextRootMerkelPatriciaTree noIndex dataRoot (fuel + 1)
      { quietState 200 101 with mptCache := .empty } 99 = .ok (dataRoot .empty, stuckState) :=
    cacheGetNextRoot_of_young rfl (by decide)
  exact replayStep_eq (by show 99 < (quietChain 200).length; omega) hyoung

lemma Stuck.replayStep_depth (h : Stuck st) : replayStep index root fuel st 200 = .error .depth := by
  unfold replayStep
  rw [requireThat_pos h.disk, ok_bind, h.depth]
  rfl

lemma predictMPTRoot_quietState (fuel : ℕ) :
    predictMPTRoot noIndex dataRoot fuel (quietState 200 101) 200 = .error .depth := by
  have hlen : (quietChain 200).length = 201 := length_quietChain 200
  cases fuel with
  | zero => rfl
  | succ fuel =>
    have hslot : (quietState 200 101).mptList (200 + 1) = [] := rfl
    unfold predictMPTRoot
    rw [advanceActiveHight_of_lt (show 200 < 201 by decide), ok_bind, cacheGetNextRoot_of_far hslot (by decide)
      (by decide), show 200 + 1 - 99 = 101 + 1 from rfl, range'_succ, foldlM_cons]
    cases fuel with
    | zero =>
      rw [replayStep_zero (by show 99 < (quietChain 200).length; omega)]
      rfl
    | succ fuel =>
      -- the first round fills slot 100, and then no round makes progress
      have hreplay : (List.range' 100 100).foldlM (replayStep noIndex dataRoot (fuel + 1)) stuckState =
          .ok stuckState := by
        apply replay_of_cached
        intro k hk
        rw [mem_range'_1] at hk
        have hdisk := stuck_stuckState.disk
        exact ⟨by omega, stuck_stuckState.filled (k + 1) (by omega) (by omega)⟩
      rw [replayStep_quietState, ok_bind, show 99 + 1 = 100 from rfl, show 101 = 100 + 1 from rfl,
        range'_1_concat, foldlM_append, hreplay, ok_bind, foldlM_cons,
        stuck_stuckState.replayStep_depth]
      rfl

/-- Blocks are disconnected down to height 100, with a call of `updateHotBlock` at every tip, and
connected again up to height 200. The next block is never decided. -/
theorem connectTip_neverEnds :
    ∃ st, CallRun noIndex dataRoot (fun _ _ => True) st ∧
      ∀ fuel, runCall noIndex dataRoot fuel st (.connectTip (blockOf [minedTx 201]) true) =
        .error .depth := by
  refine ⟨quietState 200 101, callRun_up le_rfl, ?_⟩
  intro fuel
  have hcheck : checkUChainVersion noIndex dataRoot fuel (quietState 200 101) (blockOf [minedTx 201])
      (quietState 200 101).height = .error .depth := by
    rw [height_quietState]
    unfold checkUChainVersion
    rw [if_pos (by decide), predictMPTRoot_quietState]
    rfl
  have hconnect : connectTip noIndex dataRoot fuel (quietState 200 101) (blockOf [minedTx 201]) true =
      .error .depth := by
    unfold connectTip
    rw [hcheck]
    rfl
  show (connectTip noIndex dataRoot fuel (quietState 200 101) (blockOf [minedTx 201]) true).map Prod.snd = _
  rw [hconnect]
  rfl

theorem runCall_completes_quietState :
    runCall noIndex dataRoot 203 (quietState 201 201) (.connectTip (blockOf [minedTx 202]) true) ≠
        .error .hight ∧
      runCall noIndex dataRoot 203 (quietState 201 201) (.connectTip (blockOf [minedTx 202]) true) ≠
        .error .depth := by
  have hpos : 0 < (quietChain 201).length := by
    rw [length_quietChain]
    decide
  have hheight := height_quietState 201 201
  have hends : CallEnds (quietState 201 201) (.connectTip (blockOf [minedTx 202]) true) := by
    left
    rw [hheight]
    exact le_rfl
  exact runCall_completes_of_callRun cSHA256 noIndex dataRoot dataRoot_ne_nil (quietState 201 201)
    (.startUp hpos startUp_quietChain) (.connectTip (blockOf [minedTx 202]) true) trivial hends 203
    (by rw [hheight])

end NeverEnds

end MutableBitcoin
