import MutableBitcoin.VersionCheck

/-!
# The list of roots and the second trie

`cacheGetNextRootMerkelPatriciaTree` keeps the roots it has computed in a list and the trie of the
last one in `mptCache`.
-/

namespace MutableBitcoin
open Lib Function List Nat

variable {sha256 : Bytes → Uint256} {index : Uint256 → Option ℕ} {root : Trie → Str}
  {disk : List (CBlock sha256)} {st st' : VersionState sha256} {fuel best : ℕ}

section HotMap

variable (index : Uint256 → Option ℕ) (disk : List (CBlock sha256))

/-- The instructions of the block at height `b`, applied when the chain has become old enough. -/
def hotStep (b : ℕ) (mpt : Trie) : Except Stop Trie :=
  match disk[b]? with
  | none => .ok mpt
  | some block => do
    let (_, mpt) ← checkBlockUChain index .nextMPTRoot b (b + MIN_MUTABLETX_AGE - 1) block disk mpt
    return mpt

/-- The hot blocks of heights 1 to `n`, applied in order to the empty trie. -/
def hotMap : ℕ → Except Stop Trie
  | 0 => .ok Trie.empty
  | n + 1 => hotMap n >>= hotStep index disk (n + 1)

variable {index disk}

lemma hotMap_eq_versionMap {n : ℕ} (h : ScannableUpTo index disk n) :
    hotMap index disk n = .ok (versionMap index disk n) := by
  induction n with
  | zero => rfl
  | succ n ih =>
    rw [hotMap, ih (h.mono (le_succ n)), ok_bind, hotStep, versionMap]
    cases hblock : disk[n + 1]? with
    | none => simp [versionsAt, hblock]
    | some block =>
      have hscan := h (n + 1) block (by omega) le_rfl hblock
      have hstored : StoredVersion index (fun _ => False) disk disk := storedVersion_refl disk
      obtain ⟨sc, hfold⟩ : ∃ sc, (mutantOutputs block).foldlM (processOutput index .nextMPTRoot (n + 1))
          ⟨disk, versionMap index disk n, []⟩ = some sc := exists_scan (by decide) hstored hscan
      have hmpt := scan_mpt (by decide) hstored hscan.plain hfold
      dsimp only at hmpt
      dsimp only
      rw [checkBlockUChain_nextMPTRoot (by simp [MIN_MUTABLETX_AGE]), scanBlock, hfold, versionsAt_eq hblock, ← hmpt]
      rfl

lemma exists_hotMap_of_le {m n : ℕ} (hmn : m ≤ n) {mpt : Trie} (h : hotMap index disk n = .ok mpt) :
    ∃ mpt, hotMap index disk m = .ok mpt := by
  induction n generalizing mpt with
  | zero =>
    obtain rfl : m = 0 := by omega
    exact ⟨mpt, h⟩
  | succ n ih =>
    rcases lt_or_eq_of_le hmn with hlt | rfl
    · obtain ⟨mpt', hmpt', -⟩ := bind_eq_ok_iff.mp h
      exact ih (Nat.lt_succ_iff.mp hlt) hmpt'
    · exact ⟨mpt, h⟩

end HotMap

section Branches

def VersionState.storeCache (st : VersionState sha256) (root : Trie → Str) (hight : ℕ) (mpt : Trie) :
    VersionState sha256 :=
  storeTempRootMerkelPatriciaTreeCache { st with mptCache := mpt } hight (root mpt) true

@[simp] lemma VersionState.storeCache_nMPTCacheHight (st : VersionState sha256) (root : Trie → Str)
    (hight : ℕ) (mpt : Trie) :
    (st.storeCache root hight mpt).nMPTCacheHight = max st.nMPTCacheHight hight := by
  show (if st.nMPTCacheHight < hight ∧ true = true then hight else st.nMPTCacheHight) = _
  by_cases h : st.nMPTCacheHight < hight
  · rw [if_pos ⟨h, rfl⟩, max_eq_right h.le]
  · rw [if_neg (fun hc => h hc.1), max_eq_left (not_lt.mp h)]

def replayStep (index : Uint256 → Option ℕ) (root : Trie → Str) (fuel : ℕ) (st : VersionState sha256)
    (hight : ℕ) : Except Stop (VersionState sha256) := do
  requireThat .hight (hight < st.disk.length)
  let (_, st) ← cacheGetNextRootMerkelPatriciaTree index root fuel st hight
  return st

lemma replayStep_eq {hight : ℕ} {r : Str} (hlt : hight < st.disk.length)
    (hcall : cacheGetNextRootMerkelPatriciaTree index root fuel st hight = .ok (r, st')) :
    replayStep index root fuel st hight = .ok st' :=
  unit_bind_eq_ok_iff.mpr ⟨requireThat_pos hlt, bind_eq_ok_iff.mpr ⟨_, hcall, rfl⟩⟩

lemma cacheGetNextRoot_of_young (hslot : st.mptList (best + 1) = []) (hyoung : best + 1 ≤ MIN_MUTABLETX_AGE) :
    cacheGetNextRootMerkelPatriciaTree index root (fuel + 1) st best =
      .ok (root st.mptCache, st.storeCache root (best + 1) st.mptCache) := by
  rw [cacheGetNextRootMerkelPatriciaTree]
  dsimp only
  rw [if_neg (by simp [hslot]), if_pos hyoung]
  rfl

lemma cacheGetNextRoot_of_far (hslot : st.mptList (best + 1) = []) (hold : MIN_MUTABLETX_AGE < best + 1)
    (hfar : st.nMPTCacheHight + 100 < best + 1) :
    cacheGetNextRootMerkelPatriciaTree index root (fuel + 1) st best =
      ((List.range' 99 (best + 1 - 99)).foldlM (replayStep index root fuel)
        { st with mptCache := .empty }).map
        (fun st => (root st.mptCache, st.storeCache root (best + 1) st.mptCache)) := by
  have hMIN : MIN_MUTABLETX_AGE = 100 := rfl
  rw [cacheGetNextRootMerkelPatriciaTree]
  dsimp only
  rw [if_neg (by simp [hslot]), if_neg (by omega), if_pos ⟨by omega, by omega, by omega⟩]
  change (List.range' 99 (best + 1 - 99)).foldlM (replayStep index root fuel)
      { st with mptCache := .empty } >>= _ = _
  cases (List.range' 99 (best + 1 - 99)).foldlM (replayStep index root fuel)
      { st with mptCache := .empty } with
  | error e => rfl
  | ok st => rfl

def cacheHotBlock (index : Uint256 → Option ℕ) (root : Trie → Str) (st : VersionState sha256) (best : ℕ) :
    Except Stop (Str × VersionState sha256) := do
  let mpt ← hotStep index st.disk (best + 1 - MIN_MUTABLETX_AGE) st.mptCache
  return (root mpt, st.storeCache root (best + 1) mpt)

lemma cacheGetNextRoot_of_near (hslot : st.mptList (best + 1) = []) (hold : MIN_MUTABLETX_AGE < best + 1)
    (hnear : best + 1 ≤ st.nMPTCacheHight + 100) :
    cacheGetNextRootMerkelPatriciaTree index root (fuel + 1) st best =
      (if best = st.nMPTCacheHight then .ok st else do
        let (_, st) ← cacheGetNextRootMerkelPatriciaTree index root fuel st (best - 1)
        return st) >>= fun st => cacheHotBlock index root st best := by
  have hMIN : MIN_MUTABLETX_AGE = 100 := rfl
  have hage : best + 1 - MIN_MUTABLETX_AGE + MIN_MUTABLETX_AGE - 1 = best := by omega
  rw [cacheGetNextRootMerkelPatriciaTree]
  dsimp only
  rewrite [if_neg (by simp [hslot]), if_neg (by omega), if_neg (by omega)]
  simp only [Nat.add_sub_cancel]
  apply bind_congr
  intro st
  unfold cacheHotBlock hotStep
  rw [hage]
  cases st.disk[best + 1 - MIN_MUTABLETX_AGE]? with
  | none => rfl
  | some block => rfl

lemma cacheGetNextRoot_of_last (hslot : st.mptList (best + 1) = []) (hold : MIN_MUTABLETX_AGE < best + 1)
    (hlast : best = st.nMPTCacheHight) :
    cacheGetNextRootMerkelPatriciaTree index root (fuel + 1) st best = cacheHotBlock index root st best := by
  rw [cacheGetNextRoot_of_near hslot hold (by omega), if_pos hlast, ok_bind]

end Branches

section Filled

/-- The slots from 100 to `c` have the roots of the hot blocks in order, all others are empty, and the
second trie is that of slot `c`. -/
structure Filled (index : Uint256 → Option ℕ) (root : Trie → Str) (disk : List (CBlock sha256)) (c : ℕ)
    (st : VersionState sha256) : Prop where
  disk_eq : st.disk = disk
  hight : st.nMPTCacheHight = c
  above : ∀ k, c < k → st.mptList k = []
  slot : ∀ k, MIN_MUTABLETX_AGE ≤ k → k ≤ c →
    (hotMap index disk (k - MIN_MUTABLETX_AGE)).map root = .ok (st.mptList k)
  trie : hotMap index disk (c - MIN_MUTABLETX_AGE) = .ok st.mptCache

variable {c k : ℕ} {mpt : Trie}

lemma Filled.storeCache (h : Filled index root disk c st) (hck : c ≤ k)
    (hgap : ∀ j, MIN_MUTABLETX_AGE ≤ j → j < k → j ≤ c)
    (hmpt : hotMap index disk (k - MIN_MUTABLETX_AGE) = .ok mpt) :
    Filled index root disk k (st.storeCache root k mpt) where
  disk_eq := h.disk_eq
  hight := by
    rw [VersionState.storeCache_nMPTCacheHight, h.hight]
    exact max_eq_right hck
  above j hj := by
    show Function.update st.mptList k (root mpt) j = []
    rw [update_of_ne (by omega)]
    exact h.above j (by omega)
  slot j hj hjk := by
    show _ = Except.ok (Function.update st.mptList k (root mpt) j)
    rcases lt_or_eq_of_le hjk with hlt | rfl
    · rw [update_of_ne (by omega)]
      exact h.slot j hj (hgap j hj hlt)
    · rw [update_self, hmpt]
      rfl
  trie := hmpt

lemma Filled.cacheHotBlock (h : Filled index root disk c st) (hc : MIN_MUTABLETX_AGE ≤ c)
    (hmpt : hotMap index disk (c + 1 - MIN_MUTABLETX_AGE) = .ok mpt) :
    cacheHotBlock index root st c = .ok (root mpt, st.storeCache root (c + 1) mpt) := by
  have hage : c + 1 - MIN_MUTABLETX_AGE = c - MIN_MUTABLETX_AGE + 1 := by omega
  rw [hage, hotMap, h.trie, ok_bind] at hmpt
  unfold MutableBitcoin.cacheHotBlock
  rw [hage, h.disk_eq, hmpt]
  rfl

lemma Filled.slot_ne_nil (h : Filled index root disk c st) (hroot : ∀ mpt, root mpt ≠ [])
    (hk : MIN_MUTABLETX_AGE ≤ k) (hkc : k ≤ c) : st.mptList k ≠ [] := by
  have hslot := h.slot k hk hkc
  cases hmap : hotMap index disk (k - MIN_MUTABLETX_AGE) with
  | error e =>
    rw [hmap] at hslot
    cases hslot
  | ok mpt =>
    rw [hmap] at hslot
    rw [← Except.ok.inj hslot]
    exact hroot mpt

lemma Filled.cached (h : Filled index root disk c st) (hroot : ∀ mpt, root mpt ≠ [])
    (hk : MIN_MUTABLETX_AGE ≤ best + 1) (hkc : best + 1 ≤ c)
    (hmpt : hotMap index disk (best + 1 - MIN_MUTABLETX_AGE) = .ok mpt) :
    cacheGetNextRootMerkelPatriciaTree index root (fuel + 1) st best = .ok (root mpt, st) := by
  have hslot := h.slot (best + 1) hk hkc
  rw [hmpt] at hslot
  rw [cacheGetNextRoot_of_cached (h.slot_ne_nil hroot hk hkc), ← Except.ok.inj hslot]

lemma Filled.near (h : Filled index root disk c st) (hc : MIN_MUTABLETX_AGE ≤ c) {d : ℕ} (hd : d < 100)
    (hmaps : ∀ n, n ≤ c + d + 1 - MIN_MUTABLETX_AGE → ∃ mpt, hotMap index disk n = .ok mpt)
    (hmpt : hotMap index disk (c + d + 1 - MIN_MUTABLETX_AGE) = .ok mpt) :
    ∃ st', cacheGetNextRootMerkelPatriciaTree index root (fuel + d + 1) st (c + d) =
      .ok (root mpt, st') ∧ Filled index root disk (c + d + 1) st' := by
  have hMIN : MIN_MUTABLETX_AGE = 100 := rfl
  induction d generalizing mpt with
  | zero =>
    simp only [add_zero] at hmpt ⊢
    rw [cacheGetNextRoot_of_last (h.above _ (by omega)) (by omega) h.hight.symm, h.cacheHotBlock hc hmpt]
    exact ⟨_, rfl, h.storeCache (by omega) (by omega) hmpt⟩
  | succ d ih =>
    obtain ⟨mpt', hmpt'⟩ := hmaps (c + d + 1 - MIN_MUTABLETX_AGE) (by omega)
    obtain ⟨st₁, hcall, hfilled⟩ := ih (by omega) (fun n hn => hmaps n (by omega)) hmpt'
    rw [cacheGetNextRoot_of_near (h.above _ (by omega)) (by omega) (by rw [h.hight]; omega),
      if_neg (by rw [h.hight]; omega)]
    have hcall' : cacheGetNextRootMerkelPatriciaTree index root (fuel + (d + 1)) st (c + (d + 1) - 1) =
        .ok (root mpt', st₁) := hcall
    rw [hcall', ok_bind]
    refine ⟨_, hfilled.cacheHotBlock (by omega) hmpt, hfilled.storeCache (by omega) (by omega) hmpt⟩

lemma Filled.replay (h : Filled index root disk 0 st) {n : ℕ} (hn : n + 99 < disk.length)
    (hmaps : ∀ m ≤ n, ∃ mpt, hotMap index disk m = .ok mpt) :
    ∃ st', (List.range' 99 (n + 1)).foldlM (replayStep index root (fuel + 1)) st = .ok st' ∧
      Filled index root disk (n + 100) st' := by
  have hMIN : MIN_MUTABLETX_AGE = 100 := rfl
  induction n with
  | zero =>
    have hcall : cacheGetNextRootMerkelPatriciaTree index root (fuel + 1) st 99 = .ok (_, _) :=
      cacheGetNextRoot_of_young (h.above 100 (by omega)) (by decide)
    refine ⟨st.storeCache root 100 st.mptCache, ?_, h.storeCache (by omega) (by omega) h.trie⟩
    rw [range'_one, foldlM_cons, replayStep_eq (by rw [h.disk_eq]; omega) hcall]
    rfl
  | succ n ih =>
    obtain ⟨st₁, hrun, hfilled⟩ := ih (by omega) (fun m hm => hmaps m (by omega))
    obtain ⟨mpt, hmpt⟩ := hmaps (n + 1) le_rfl
    obtain ⟨st₂, hcall, hfilled₂⟩ : ∃ st₂, cacheGetNextRootMerkelPatriciaTree index root (fuel + 1) st₁
        (n + 100) = .ok (root mpt, st₂) ∧ Filled index root disk (n + 100 + 1) st₂ :=
      hfilled.near (by omega) (d := 0) (by omega) (fun m hm => hmaps m (by omega)) (by
        rw [← hmpt, hMIN]
        congr 1)
    refine ⟨st₂, ?_, by rwa [show n + 1 + 100 = n + 100 + 1 by omega]⟩
    have hstep : replayStep index root (fuel + 1) st₁ (99 + (n + 1)) = .ok st₂ := by
      rw [show 99 + (n + 1) = n + 100 by omega]
      exact replayStep_eq (by rw [hfilled.disk_eq]; omega) hcall
    rw [range'_1_concat, foldlM_append, hrun, ok_bind, foldlM_cons, hstep]
    rfl

lemma Filled.call (h : Filled index root disk c st) (hroot : ∀ mpt, root mpt ≠ [])
    (hc : c = 0 ∨ MIN_MUTABLETX_AGE ≤ c) (hreach : c = 0 ∨ best + 1 ≤ c + 100) (hbest : 100 ≤ best)
    (hlt : best < disk.length)
    (hmpt : hotMap index disk (best + 1 - MIN_MUTABLETX_AGE) = .ok mpt) (hfuel : 100 ≤ fuel) :
    ∃ st', cacheGetNextRootMerkelPatriciaTree index root fuel st best = .ok (root mpt, st') ∧
      Filled index root disk (max c (best + 1)) st' := by
  have hMIN : MIN_MUTABLETX_AGE = 100 := rfl
  have hmaps : ∀ n, n ≤ best + 1 - MIN_MUTABLETX_AGE → ∃ mpt, hotMap index disk n = .ok mpt :=
    fun n hn => exists_hotMap_of_le hn hmpt
  rcases hc with rfl | hc
  · obtain ⟨fuel, rfl⟩ := Nat.exists_eq_add_of_le' (show 2 ≤ fuel by omega)
    have hfresh : Filled index root disk 0 { st with mptCache := .empty } :=
      ⟨h.disk_eq, h.hight, h.above, h.slot, rfl⟩
    obtain ⟨st₁, hrun, hfilled⟩ : ∃ st₁, (List.range' 99 (best - 99 + 1)).foldlM
        (replayStep index root (fuel + 1)) { st with mptCache := .empty } = .ok st₁ ∧
        Filled index root disk (best - 99 + 100) st₁ :=
      hfresh.replay (by omega) (fun m hm => hmaps m (by omega))
    have hheight : best - 99 + 100 = best + 1 := by omega
    rw [hheight] at hfilled
    obtain rfl := Except.ok.inj (hmpt.symm.trans hfilled.trie)
    rw [cacheGetNextRoot_of_far (h.above _ (by omega)) (by omega) (by rw [h.hight]; omega),
      show best + 1 - 99 = best - 99 + 1 by omega, hrun]
    refine ⟨_, rfl, ?_⟩
    rw [zero_max]
    exact hfilled.storeCache le_rfl (by omega) hmpt
  · by_cases hcached : best + 1 ≤ c
    · obtain ⟨fuel, rfl⟩ := Nat.exists_eq_add_of_le' (show 1 ≤ fuel by omega)
      rw [max_eq_left hcached]
      exact ⟨st, h.cached hroot (by omega) hcached hmpt, h⟩
    · obtain ⟨d, rfl⟩ := Nat.exists_eq_add_of_le (show c ≤ best by omega)
      obtain ⟨fuel, rfl⟩ := Nat.exists_eq_add_of_le' (show d + 1 ≤ fuel by omega)
      rw [max_eq_right (by omega), ← add_assoc]
      exact h.near hc (by omega) hmaps hmpt

end Filled

section Calls

/-- The answers to a list of calls. -/
def cacheCalls (index : Uint256 → Option ℕ) (root : Trie → Str) (fuel : ℕ) :
    VersionState sha256 → List ℕ → Except Stop (List Str × VersionState sha256)
  | st, [] => .ok ([], st)
  | st, best :: bests => do
    let (r, st) ← cacheGetNextRootMerkelPatriciaTree index root fuel st best
    let (rs, st) ← cacheCalls index root fuel st bests
    return (r :: rs, st)

/-- The list and the second trie are empty. -/
structure FreshCaches (st : VersionState sha256) : Prop where
  mptList : ∀ hight, st.mptList hight = []
  nMPTCacheHight : st.nMPTCacheHight = 0
  mptCache : st.mptCache = Trie.empty

/-- Every call but the first is at most 100 heights above the highest one before it. The number is
the height after that one, or 0 before the first call. -/
def WithinReach : ℕ → List ℕ → Prop
  | _, [] => True
  | c, best :: bests => (c = 0 ∨ best + 1 ≤ c + 100) ∧ WithinReach (max c (best + 1)) bests

/-- The roots those calls should get. -/
def expectedRoots (index : Uint256 → Option ℕ) (root : Trie → Str) (disk : List (CBlock sha256)) :
    List ℕ → Except Stop (List Str)
  | [] => .ok []
  | best :: bests => do
    let mpt ← hotMap index disk (best + 1 - MIN_MUTABLETX_AGE)
    let rs ← expectedRoots index root disk bests
    return root mpt :: rs

lemma exists_expectedRoots {bests : List ℕ}
    (h : ∀ best ∈ bests, ∃ mpt, hotMap index disk (best + 1 - MIN_MUTABLETX_AGE) = .ok mpt) :
    ∃ roots, expectedRoots index root disk bests = .ok roots := by
  induction bests with
  | nil => exact ⟨[], rfl⟩
  | cons best bests ih =>
    obtain ⟨⟨mpt, hmpt⟩, hrest⟩ := forall_mem_cons.mp h
    obtain ⟨roots, hroots⟩ := ih hrest
    exact ⟨root mpt :: roots, bind_eq_ok_iff.mpr ⟨mpt, hmpt, bind_eq_ok_iff.mpr ⟨roots, hroots, rfl⟩⟩⟩

lemma FreshCaches.filled (h : FreshCaches st) : Filled index root st.disk 0 st where
  disk_eq := rfl
  hight := h.nMPTCacheHight
  above k _ := h.mptList k
  slot k hk hk0 := by
    have : MIN_MUTABLETX_AGE = 100 := rfl
    omega
  trie := by
    rw [h.mptCache]
    rfl

lemma Filled.cacheCalls {c : ℕ} (h : Filled index root disk c st) (hroot : ∀ mpt, root mpt ≠ [])
    (hc : c = 0 ∨ MIN_MUTABLETX_AGE ≤ c) {bests : List ℕ} (hreach : WithinReach c bests)
    (hbests : ∀ best ∈ bests, 100 ≤ best ∧ best < disk.length) {roots : List Str}
    (hroots : expectedRoots index root disk bests = .ok roots) (hfuel : 100 ≤ fuel) :
    ∃ st', MutableBitcoin.cacheCalls index root fuel st bests = .ok (roots, st') := by
  induction bests generalizing c st roots with
  | nil =>
    obtain rfl := Except.ok.inj hroots
    exact ⟨st, rfl⟩
  | cons best bests ih =>
    obtain ⟨hbest, hbests⟩ := forall_mem_cons.mp hbests
    obtain ⟨mpt, hmpt, hroots⟩ := bind_eq_ok_iff.mp hroots
    obtain ⟨rs, hrs, heq⟩ := bind_eq_ok_iff.mp hroots
    obtain rfl := Except.ok.inj heq
    obtain ⟨st₁, hcall, hfilled⟩ := h.call hroot hc hreach.1 hbest.1 hbest.2 hmpt hfuel
    have hc' : max c (best + 1) = 0 ∨ MIN_MUTABLETX_AGE ≤ max c (best + 1) := by
      have : MIN_MUTABLETX_AGE = 100 := rfl
      omega
    obtain ⟨st₂, hcalls⟩ := ih hfilled hc' hreach.2 hbests hrs
    exact ⟨st₂, bind_eq_ok_iff.mpr ⟨_, hcall, bind_eq_ok_iff.mpr ⟨_, hcalls, rfl⟩⟩⟩

/-- From fresh caches, calls within reach return the roots of the hot blocks applied in order. -/
theorem cacheCalls_transparent (sha256 : Bytes → Uint256) (index : Uint256 → Option ℕ)
    (root : Trie → Str) (hroot : ∀ mpt, root mpt ≠ []) (st : VersionState sha256) (hfresh : FreshCaches st)
    (bests : List ℕ) (hbests : ∀ best ∈ bests, 100 ≤ best ∧ best < st.disk.length) (roots : List Str)
    (hroots : expectedRoots index root st.disk bests = .ok roots) (hreach : WithinReach 0 bests)
    (fuel : ℕ) (hfuel : 100 ≤ fuel) :
    ∃ st', cacheCalls index root fuel st bests = .ok (roots, st') :=
  hfresh.filled.cacheCalls hroot (Or.inl rfl) hreach hbests hroots hfuel

end Calls

section OutOfReach

/-- The slots are filled up to `c`, but the second trie is empty. -/
structure Lost (disk : List (CBlock sha256)) (c : ℕ) (st : VersionState sha256) : Prop where
  disk_eq : st.disk = disk
  hight : st.nMPTCacheHight = c
  above : ∀ k, c < k → st.mptList k = []
  filled : ∀ k, MIN_MUTABLETX_AGE ≤ k → k ≤ c → st.mptList k ≠ []
  trie : st.mptCache = Trie.empty

variable {c k : ℕ}

lemma hotStep_of_quiet {b : ℕ} {B : CBlock sha256} (hB : disk[b]? = some B) (hquiet : mutantOutputs B = [])
    (mpt : Trie) : hotStep index disk b mpt = .ok mpt := by
  unfold hotStep
  rw [hB]
  dsimp only
  rw [checkBlockUChain_nextMPTRoot (by simp [MIN_MUTABLETX_AGE]), scanBlock, hquiet]
  rfl

lemma Lost.replayStep (h : Lost disk c st) (hroot : ∀ mpt, root mpt ≠ []) (hc : MIN_MUTABLETX_AGE ≤ c)
    (hk : 99 ≤ k) (hkc : k ≤ c) (hlt : k < disk.length)
    (hquiet : k = c → hotStep index disk (k + 1 - MIN_MUTABLETX_AGE) Trie.empty = .ok Trie.empty) :
    ∃ st', replayStep index root (fuel + 1) st k = .ok st' ∧ Lost disk (max c (k + 1)) st' := by
  have hMIN : MIN_MUTABLETX_AGE = 100 := rfl
  rcases lt_or_eq_of_le hkc with hcached | rfl
  · have hcall : cacheGetNextRootMerkelPatriciaTree index root (fuel + 1) st k = .ok (_, _) :=
      cacheGetNextRoot_of_cached (h.filled (k + 1) (by omega) hcached)
    rw [max_eq_left hcached]
    exact ⟨st, replayStep_eq (by rwa [h.disk_eq]) hcall, h⟩
  · have hhot : cacheHotBlock index root st k = .ok (root Trie.empty, st.storeCache root (k + 1) .empty) := by
      unfold cacheHotBlock
      rw [h.disk_eq, h.trie, hquiet rfl]
      rfl
    have hcall : cacheGetNextRootMerkelPatriciaTree index root (fuel + 1) st k = .ok (_, _) :=
      (cacheGetNextRoot_of_last (h.above _ (by omega)) (by omega) h.hight.symm).trans hhot
    rw [max_eq_right (by omega)]
    refine ⟨_, replayStep_eq (by rwa [h.disk_eq]) hcall, h.disk_eq, ?_, ?_, ?_, rfl⟩
    · rw [VersionState.storeCache_nMPTCacheHight, h.hight]
      omega
    · intro j hj
      exact (update_of_ne (by omega) ..).trans (h.above j (by omega))
    · intro j hj hjk
      show Function.update st.mptList (k + 1) (root .empty) j ≠ []
      rcases lt_or_eq_of_le hjk with hlt | rfl
      · rw [update_of_ne (by omega)]
        exact h.filled j hj (by omega)
      · rw [update_self]
        exact hroot _

lemma Lost.replay (h : Lost disk c st) (hroot : ∀ mpt, root mpt ≠ []) (hc : MIN_MUTABLETX_AGE ≤ c) {n : ℕ}
    (hn : 98 + n < disk.length)
    (hquiet : ∀ b < n, c ≤ 99 + b → hotStep index disk b Trie.empty = .ok Trie.empty) :
    ∃ st', (List.range' 99 n).foldlM (MutableBitcoin.replayStep index root (fuel + 1)) st = .ok st' ∧
      Lost disk (max c (99 + n)) st' := by
  have hMIN : MIN_MUTABLETX_AGE = 100 := rfl
  induction n with
  | zero =>
    rw [max_eq_left (by omega)]
    exact ⟨st, rfl, h⟩
  | succ n ih =>
    obtain ⟨st₁, hrun, hlost⟩ := ih (by omega) (fun b hb => hquiet b (by omega))
    obtain ⟨st₂, hstep, hlost₂⟩ : ∃ st₂, MutableBitcoin.replayStep index root (fuel + 1) st₁ (99 + n) =
        .ok st₂ ∧ Lost disk (max (max c (99 + n)) (99 + n + 1)) st₂ := by
      apply hlost.replayStep hroot (by omega) (by omega) (le_max_right _ _) (by omega)
      intro hmax
      rw [show 99 + n + 1 - MIN_MUTABLETX_AGE = n by omega]
      exact hquiet n (by omega) (by omega)
    refine ⟨st₂, ?_, by rwa [show max c (99 + (n + 1)) = max (max c (99 + n)) (99 + n + 1) by omega]⟩
    rw [range'_1_concat, foldlM_append, hrun, ok_bind, foldlM_cons, hstep]
    rfl

lemma Filled.outOfReach (h : Filled index root disk c st) (hroot : ∀ mpt, root mpt ≠ [])
    (hc : MIN_MUTABLETX_AGE ≤ c) (hfar : c + 100 < best + 1) (hlt : best < disk.length)
    (hquiet : ∀ b, c ≤ 99 + b → b + 99 ≤ best → hotStep index disk b Trie.empty = .ok Trie.empty) :
    ∃ st', cacheGetNextRootMerkelPatriciaTree index root (fuel + 2) st best =
      .ok (root Trie.empty, st') := by
  have hMIN : MIN_MUTABLETX_AGE = 100 := rfl
  have hlost : Lost disk c { st with mptCache := .empty } :=
    ⟨h.disk_eq, h.hight, h.above, fun k hk hkc => h.slot_ne_nil hroot hk hkc, rfl⟩
  obtain ⟨st₁, hrun, hlost₁⟩ : ∃ st₁, (List.range' 99 (best + 1 - 99)).foldlM
      (MutableBitcoin.replayStep index root (fuel + 1)) { st with mptCache := .empty } = .ok st₁ ∧
      Lost disk (max c (99 + (best + 1 - 99))) st₁ :=
    hlost.replay hroot hc (by omega) (fun b hb hcb => hquiet b hcb (by omega))
  rw [cacheGetNextRoot_of_far (h.above _ (by omega)) (by omega) (by rw [h.hight]; exact hfar), hrun,
    ← hlost₁.trie]
  exact ⟨_, rfl⟩

def reachBlocks : List (CBlock cSHA256) := minedBlocks 3 200

def reachIndex : Uint256 → Option ℕ := txIndex (mutantChain reachBlocks)

lemma length_reachChain : (mutantChain reachBlocks).length = 203 := by
  simp [reachBlocks, mutantChain, mutantBlocks, minedBlocks]

lemma getElem?_mutantChain_mined {n b : ℕ} (h3 : 3 ≤ b) (hb : b < n + 3) :
    (mutantChain (minedBlocks 3 n))[b]? = some (blockOf [minedTx b]) := by
  obtain ⟨b, rfl⟩ := Nat.exists_eq_add_of_le h3
  rw [add_comm 3 b]
  show (minedBlocks 3 n)[b]? = _
  rw [minedBlocks, getElem?_map, getElem?_range' (by omega)]
  simp [add_comm]

lemma scannable_reachChain {n : ℕ} (hn : n < 203) :
    ScannableUpTo reachIndex (mutantChain reachBlocks) n := by
  intro c block h1 hc hblock
  by_cases h3 : 3 ≤ c
  · obtain rfl := Option.some.inj ((getElem?_mutantChain_mined h3 (by omega)).symm.trans hblock)
    rw [mutantOutputs_minedBlock]
    exact ⟨by simp, by simp [PlainTargets], by simp⟩
  · exact scannable_mutantBlocks _ c block h1 (by omega) hblock

def reachState : VersionState cSHA256 :=
  ⟨mutantChain reachBlocks, Trie.empty, false, 0, fun _ => [], 0, Trie.empty⟩

lemma freshCaches_reachState : FreshCaches reachState := ⟨fun _ => rfl, rfl, rfl⟩

lemma hotMap_reachState {n : ℕ} (hn : n < 203) : hotMap reachIndex reachState.disk n =
    .ok (versionMap reachIndex (mutantChain reachBlocks) n) :=
  hotMap_eq_versionMap (scannable_reachChain hn)

lemma versionMap_isSome_mono {m n : ℕ} (hmn : m ≤ n) {key : Str}
    (h : (versionMap index disk m key).isSome = true) : (versionMap index disk n key).isSome = true := by
  induction n, hmn using le_induction with
  | base => exact h
  | succ n _ ih => exact isSome_insertAll_mono ih

theorem cacheCalls_transparent_reachState :
    ∃ roots st', WithinReach 0 [101, 201, 110] ∧
      expectedRoots reachIndex dataRoot reachState.disk [101, 201, 110] = .ok roots ∧
      cacheCalls reachIndex dataRoot 100 reachState [101, 201, 110] = .ok (roots, st') := by
  have hbests : ∀ best ∈ [101, 201, 110], 100 ≤ best ∧ best < 203 := by decide
  obtain ⟨roots, hroots⟩ : ∃ roots, expectedRoots reachIndex dataRoot reachState.disk [101, 201, 110] =
      .ok roots := by
    apply exists_expectedRoots
    intro best hbest
    have hlt := (hbests best hbest).2
    exact ⟨_, hotMap_reachState (by unfold MIN_MUTABLETX_AGE; omega)⟩
  have hreach : WithinReach 0 [101, 201, 110] := by simp [WithinReach]
  rw [← length_reachChain] at hbests
  obtain ⟨st', hcalls⟩ := cacheCalls_transparent cSHA256 reachIndex dataRoot dataRoot_ne_nil reachState
    freshCaches_reachState _ hbests _ hroots hreach 100 le_rfl
  exact ⟨roots, st', hreach, hroots, hcalls⟩

/-- A call for height 101 and then one for height 202, which is out of reach: the root misses the
instruction of height 2. -/
theorem cacheCalls_outOfReach :
    ∃ r₁ r₂ mpt st', cacheCalls reachIndex dataRoot 100 reachState [101, 202] = .ok ([r₁, r₂], st') ∧
      hotMap reachIndex reachState.disk (202 + 1 - MIN_MUTABLETX_AGE) = .ok mpt ∧ r₂ ≠ dataRoot mpt := by
  have hlen : reachState.disk.length = 203 := length_reachChain
  obtain ⟨st₁, hcall, hfilled⟩ : ∃ st₁, cacheGetNextRootMerkelPatriciaTree reachIndex dataRoot 100
      reachState 101 = .ok (_, st₁) ∧ Filled reachIndex dataRoot reachState.disk (max 0 (101 + 1)) st₁ :=
    freshCaches_reachState.filled.call dataRoot_ne_nil (Or.inl rfl) (Or.inl rfl) (by decide)
      (by rw [hlen]; decide) (hotMap_reachState (by decide)) le_rfl
  obtain ⟨st₂, hcall₂⟩ : ∃ st₂, cacheGetNextRootMerkelPatriciaTree reachIndex dataRoot 100 st₁ 202 =
      .ok (dataRoot Trie.empty, st₂) := by
    apply hfilled.outOfReach dataRoot_ne_nil (by decide) (by decide) (by rw [hlen]; decide)
    intro b hb hb'
    exact hotStep_of_quiet (getElem?_mutantChain_mined (by omega) (by omega)) (mutantOutputs_minedBlock b) _
  have hsome : (versionMap reachIndex (mutantChain reachBlocks) (202 + 1 - MIN_MUTABLETX_AGE)
      mutableTx.hash.getHex).isSome = true :=
    versionMap_isSome_mono (by decide) (versionMap_two_isSome reachBlocks)
  have hrest : cacheCalls reachIndex dataRoot 100 st₁ [202] = .ok ([dataRoot Trie.empty], st₂) :=
    bind_eq_ok_iff.mpr ⟨_, hcall₂, rfl⟩
  refine ⟨_, dataRoot Trie.empty, _, st₂,
    bind_eq_ok_iff.mpr ⟨_, hcall, bind_eq_ok_iff.mpr ⟨_, hrest, rfl⟩⟩, hotMap_reachState (by decide), ?_⟩
  · rw [dataRoot, keyRoot_of_isSome hsome, keyRoot_of_none rfl]
    decide

end OutOfReach

end MutableBitcoin
