import MutableBitcoin.IncrementalTrie

/-!
# The active chain, block by block

The states that start-up, `ProcessNewBlock` and `CreateNewBlock` lead to while every call connects
at most one block and disconnects none.
-/

namespace MutableBitcoin
open Lib List

variable {sha256 : Bytes → Uint256} {index : Uint256 → Option ℕ} {root : Trie → Str}
  {chain : List (CBlock sha256)} {st st' mid : VersionState sha256} {fuel : ℕ} {block : CBlock sha256}

def nextRoot (index : Uint256 → Option ℕ) (root : Trie → Str) (chain : List (CBlock sha256)) : Str :=
  root (versionMap index chain (chain.length - MIN_MUTABLETX_AGE))

/-- What holds between two calls. -/
structure Ready (index : Uint256 → Option ℕ) (root : Trie → Str) (chain : List (CBlock sha256))
    (st : VersionState sha256) : Prop where
  inStep : InStep index chain st
  hight : st.nMPTActiveHight ≤ st.height ∨ st.nMPTActiveHight = st.height + 1 ∧
    (MIN_MUTABLETX_AGE < chain.length → st.mptList chain.length = nextRoot index root chain)

section Check

lemma InStep.ready_advance (h : InStep index chain st) :
    Ready index root chain
      (st.advance root (versionMap index chain (chain.length - MIN_MUTABLETX_AGE))) where
  inStep := h.advance
  hight := by
    refine Or.inr ⟨rfl, fun hold => ?_⟩
    rw [← h.synced.height_eq] at hold ⊢
    rw [VersionState.advance_mptList _ _ _ hold, nextRoot, h.synced.height_eq]

lemma advanceActiveHight_of_lt {best : ℕ} (h : best < st.nMPTActiveHight) :
    advanceActiveHight index root (fuel + 1) st best = .ok st := by
  rw [advanceActiveHight, if_neg (by omega)]

lemma Ready.advanceActiveHight (h : Ready index root chain st)
    (hplain : PlainUpTo index chain (chain.length - MIN_MUTABLETX_AGE))
    (hrun : advanceActiveHight index root fuel st st.height = .ok mid) :
    Ready index root chain mid ∧
      (MIN_MUTABLETX_AGE < chain.length → mid.mptList chain.length = nextRoot index root chain) := by
  cases fuel with
  | zero => cases hrun
  | succ fuel =>
    rw [MutableBitcoin.advanceActiveHight] at hrun
    by_cases hle : st.nMPTActiveHight ≤ st.height
    · rw [if_pos hle] at hrun
      obtain ⟨⟨r, st₁⟩, hnext, hrun⟩ := bind_eq_ok_iff.mp hrun
      obtain ⟨-, hrun⟩ := unit_bind_eq_ok_iff.mp hrun
      obtain ⟨-, rfl⟩ := h.inStep.getNextRootMerkelPatriciaTree_eq hplain hnext
      have hready : Ready index root chain _ := h.inStep.ready_advance
      cases fuel with
      | zero => cases hrun
      | succ fuel =>
        rw [advanceActiveHight_of_lt (Nat.lt_succ_self st.height)] at hrun
        obtain rfl := Except.ok.inj hrun
        exact ⟨hready, (hready.hight.resolve_left (Nat.not_succ_le_self st.height)).2⟩
    · rw [if_neg hle] at hrun
      obtain rfl := Except.ok.inj hrun
      exact ⟨h, (h.hight.resolve_left hle).2⟩

lemma cacheGetNextRoot_of_cached {best : ℕ} (h : st.mptList (best + 1) ≠ []) :
    cacheGetNextRootMerkelPatriciaTree index root (fuel + 1) st best =
      .ok (st.mptList (best + 1), st) := by
  rw [cacheGetNextRootMerkelPatriciaTree]
  dsimp only
  rw [if_pos (by simp [h])]

lemma Ready.predictMPTRoot (h : Ready index root chain st) (hroot : ∀ mpt, root mpt ≠ [])
    (hold : MIN_MUTABLETX_AGE < chain.length)
    (hplain : PlainUpTo index chain (chain.length - MIN_MUTABLETX_AGE)) {r : Str}
    (hrun : predictMPTRoot index root fuel st st.height = .ok (r, st')) :
    r = nextRoot index root chain ∧ Ready index root chain st' := by
  obtain ⟨mid, hadvance, hcache⟩ := bind_eq_ok_iff.mp hrun
  obtain ⟨hready, hslot⟩ := h.advanceActiveHight hplain hadvance
  have hheight := h.inStep.synced.height_eq
  have hfilled : mid.mptList (st.height + 1) = nextRoot index root chain := by
    rw [hheight]
    exact hslot hold
  cases fuel with
  | zero => cases hcache
  | succ fuel =>
    rw [cacheGetNextRoot_of_cached (by rw [hfilled]; exact hroot _), hfilled] at hcache
    obtain ⟨rfl, rfl⟩ := Prod.mk.inj (Except.ok.inj hcache)
    exact ⟨rfl, hready⟩

lemma Ready.checkUChainVersion (h : Ready index root chain st) (hroot : ∀ mpt, root mpt ≠ [])
    (hplain : PlainUpTo index chain (chain.length - MIN_MUTABLETX_AGE)) {fVersion : Bool}
    (hrun : checkUChainVersion index root fuel st block st.height = .ok (fVersion, st')) :
    Ready index root chain st' := by
  unfold MutableBitcoin.checkUChainVersion at hrun
  by_cases hold : 100 < st.height + 1
  · rw [if_pos hold] at hrun
    obtain ⟨⟨r, mid⟩, hpredict, heq⟩ := bind_eq_ok_iff.mp hrun
    obtain ⟨-, rfl⟩ := Prod.mk.inj (Except.ok.inj heq)
    rw [h.inStep.synced.height_eq] at hold
    exact (h.predictMPTRoot hroot hold hplain hpredict).2
  · rw [if_neg hold] at hrun
    obtain ⟨-, rfl⟩ := Prod.mk.inj (Except.ok.inj hrun)
    exact h

end Check

section Steps

lemma Ready.connectTip (h : Ready index root chain st) (hroot : ∀ mpt, root mpt ≠ [])
    (hplain : PlainUpTo index chain (chain.length - MIN_MUTABLETX_AGE)) {valid connected : Bool}
    (hrun : connectTip index root fuel st block valid = .ok (connected, st')) :
    ∃ mid, Ready index root chain mid ∧
      st' = if connected then { mid with disk := mid.disk ++ [block] } else mid := by
  obtain ⟨⟨fVersion, mid⟩, hcheck, hrun⟩ := bind_eq_ok_iff.mp hrun
  refine ⟨mid, h.checkUChainVersion hroot hplain hcheck, ?_⟩
  cases hboth : fVersion && valid <;> simp only [hboth, if_true, if_false, Bool.false_eq_true] at hrun
  · obtain ⟨rfl, rfl⟩ := Prod.mk.inj (Except.ok.inj hrun)
    rfl
  · obtain ⟨rfl, rfl⟩ := Prod.mk.inj (Except.ok.inj hrun)
    rfl

lemma updateHotBlock_frame (hrun : updateHotBlock index root st = .ok st') :
    st'.nMPTActiveHight = st.nMPTActiveHight ∧ ∀ h ≠ st.height, st'.mptList h = st.mptList h := by
  unfold updateHotBlock at hrun
  by_cases hold : MIN_MUTABLETX_AGE < st.height
  · rw [if_pos hold] at hrun
    dsimp only at hrun
    split at hrun
    · obtain rfl := Except.ok.inj hrun
      exact ⟨rfl, fun _ _ => rfl⟩
    · obtain ⟨⟨disk, mpt⟩, -, heq⟩ := bind_eq_ok_iff.mp hrun
      obtain rfl := Except.ok.inj heq
      exact ⟨rfl, fun h hne => Function.update_of_ne hne ..⟩
  · rw [if_neg hold] at hrun
    obtain rfl := Except.ok.inj hrun
    exact ⟨rfl, fun _ _ => rfl⟩

lemma Ready.updateHotBlock_append (h : Ready index root chain st)
    (hplain : PlainUpTo index (chain ++ [block]) (aged (chain ++ [block])))
    (hrun : updateHotBlock index root { st with disk := st.disk ++ [block] } = .ok st') :
    Ready index root (chain ++ [block]) st' := by
  obtain ⟨hin, -, hactive⟩ := h.inStep.updateHotBlock_append block hplain hrun
  refine ⟨hin, Or.inl ?_⟩
  have hheight := hin.synced.height_eq
  have hheight₀ := h.inStep.synced.height_eq
  rw [length_append, length_singleton] at hheight
  rcases h.hight with hle | ⟨heq, -⟩ <;> omega

lemma Ready.updateHotBlock_again (h : Ready index root chain st)
    (hplain : PlainUpTo index chain (aged chain)) (hrun : updateHotBlock index root st = .ok st') :
    Ready index root chain st' := by
  have hin := h.inStep.updateHotBlock_again hplain hrun
  have hheight := hin.synced.height_eq
  have hheight₀ := h.inStep.synced.height_eq
  obtain ⟨hactive, hlist⟩ := updateHotBlock_frame hrun
  have hsame : st'.height = st.height := by omega
  refine ⟨hin, ?_⟩
  rw [hactive, hsame, hlist chain.length (by omega)]
  exact h.hight

lemma Ready.connectBlocks (h : Ready index root chain st) (hroot : ∀ mpt, root mpt ≠ [])
    (hplain : PlainUpTo index chain (chain.length - MIN_MUTABLETX_AGE))
    {blocks : List (CBlock sha256 × Bool)} (hone : blocks.length ≤ 1) {connected : List (CBlock sha256)}
    (hrun : connectBlocks index root fuel st blocks = .ok (connected, st')) :
    ∃ mid, Ready index root chain mid ∧
      (connected = [] ∧ st' = mid ∨
        ∃ block, connected = [block] ∧ st' = { mid with disk := mid.disk ++ [block] }) := by
  match blocks, hone with
  | [], _ =>
    obtain ⟨rfl, rfl⟩ := Prod.mk.inj (Except.ok.inj hrun)
    exact ⟨st, h, Or.inl ⟨rfl, rfl⟩⟩
  | [(block, valid)], _ =>
    obtain ⟨⟨c, st₁⟩, htip, hrun⟩ := bind_eq_ok_iff.mp hrun
    obtain ⟨mid, hmid, hst₁⟩ := h.connectTip hroot hplain htip
    refine ⟨mid, hmid, ?_⟩
    cases c with
    | true =>
      obtain ⟨rfl, rfl⟩ := Prod.mk.inj (Except.ok.inj hrun)
      exact Or.inr ⟨block, rfl, hst₁⟩
    | false =>
      obtain ⟨rfl, rfl⟩ := Prod.mk.inj (Except.ok.inj hrun)
      exact Or.inl ⟨rfl, hst₁⟩

lemma plainUpTo_of_connected {connected : List (CBlock sha256)} (hpos : 0 < chain.length)
    (h : PlainUpTo index (chain ++ connected) ((chain ++ connected).length - MIN_MUTABLETX_AGE)) :
    PlainUpTo index chain (chain.length - MIN_MUTABLETX_AGE) := by
  have : 0 < MIN_MUTABLETX_AGE := by decide
  rw [length_append] at h
  exact plainUpTo_of_append connected (by omega) (h.mono (by omega))

lemma Ready.processNewBlock (h : Ready index root chain st) (hroot : ∀ mpt, root mpt ≠ [])
    {blocks : List (CBlock sha256 × Bool)} (hone : blocks.length ≤ 1) {connected : List (CBlock sha256)}
    (hplain : PlainUpTo index (chain ++ connected) ((chain ++ connected).length - MIN_MUTABLETX_AGE))
    (hrun : processNewBlock index root fuel st 0 blocks = .ok (connected, st')) :
    Ready index root (chain ++ connected) st' := by
  obtain ⟨⟨connected', st₁⟩, hconnect, hrun⟩ := bind_eq_ok_iff.mp hrun
  obtain ⟨st₂, hupdate, heq⟩ := bind_eq_ok_iff.mp hrun
  obtain ⟨rfl, rfl⟩ := Prod.mk.inj (Except.ok.inj heq)
  have hplain₀ := plainUpTo_of_connected h.inStep.synced.nonempty hplain
  obtain ⟨mid, hmid, ⟨rfl, rfl⟩ | ⟨block, rfl, rfl⟩⟩ := h.connectBlocks hroot hplain₀ hone hconnect
  · rw [append_nil]
    exact hmid.updateHotBlock_again (hplain₀.mono (le_next _)) hupdate
  · exact hmid.updateHotBlock_append (hplain.mono (le_next _)) hupdate

lemma Ready.createNewBlock (h : Ready index root chain st) (hroot : ∀ mpt, root mpt ≠ [])
    {template : CBlock sha256} {reached : Bool} {hash : Str}
    (hplain : PlainUpTo index chain (chain.length - MIN_MUTABLETX_AGE))
    (hrun : createNewBlock index root fuel st template reached = .ok (hash, st')) :
    Ready index root chain st' := by
  obtain ⟨⟨r, mid⟩, hnext, hrun⟩ := bind_eq_ok_iff.mp hrun
  obtain ⟨st₁, hcheck, heq⟩ := bind_eq_ok_iff.mp hrun
  obtain ⟨-, rfl⟩ := Prod.mk.inj (Except.ok.inj heq)
  obtain ⟨-, rfl⟩ := h.inStep.getNextRootMerkelPatriciaTree_eq hplain hnext
  have hready : Ready index root chain _ := h.inStep.ready_advance
  cases reached with
  | true =>
    obtain ⟨⟨fVersion, st₂⟩, hversion, heq'⟩ := bind_eq_ok_iff.mp hcheck
    obtain rfl := Except.ok.inj heq'
    exact hready.checkUChainVersion hroot hplain hversion
  | false =>
    obtain rfl := Except.ok.inj hcheck
    exact hready

end Steps

section Reachable

/-- The states with their active chains: a start-up on the blocks that another run stored, blocks that
are connected one at a time or rejected, and templates. -/
inductive Reachable (index : Uint256 → Option ℕ) (root : Trie → Str) :
    List (CBlock sha256) → VersionState sha256 → Prop where
  | startUp {genesis : CBlock sha256} {blocks : List (CBlock sha256)} {st₀ st : VersionState sha256} :
      buildChain index root genesis blocks = .ok st₀ →
      (∀ hash, Redacted index (genesis :: blocks) (aged (genesis :: blocks)) hash →
        Recorded index (genesis :: blocks) (aged (genesis :: blocks)) hash) →
      startUp index st₀.disk = .ok st → Reachable index root (genesis :: blocks) st
  | processNewBlock {chain connected : List (CBlock sha256)} {st st' : VersionState sha256} {fuel : ℕ}
      {blocks : List (CBlock sha256 × Bool)} :
      Reachable index root chain st → blocks.length ≤ 1 →
      processNewBlock index root fuel st 0 blocks = .ok (connected, st') →
      Reachable index root (chain ++ connected) st'
  | createNewBlock {chain : List (CBlock sha256)} {st st' : VersionState sha256} {fuel : ℕ}
      {template : CBlock sha256} {reached : Bool} {hash : Str} :
      Reachable index root chain st →
      createNewBlock index root fuel st template reached = .ok (hash, st') →
      Reachable index root chain st'

lemma ready_startUp {genesis : CBlock sha256} {blocks : List (CBlock sha256)} {st₀ : VersionState sha256}
    (hplain : PlainUpTo index (genesis :: blocks) (aged (genesis :: blocks)))
    (hbuild : buildChain index root genesis blocks = .ok st₀)
    (hall : ∀ hash, Redacted index (genesis :: blocks) (aged (genesis :: blocks)) hash →
      Recorded index (genesis :: blocks) (aged (genesis :: blocks)) hash)
    (hstart : startUp index st₀.disk = .ok st) : Ready index root (genesis :: blocks) st := by
  obtain ⟨hin, -⟩ := inStep_buildChain hplain hbuild
  have hmap := (hin.synced.createTrie_empty_iff hplain hin.readable).mpr hall
  rw [hin.synced.createTrie hplain hin.readable] at hmap
  rw [hin.synced.startUp_eq hplain hin.readable] at hstart
  obtain rfl := Except.ok.inj hstart
  exact ⟨inStep_of_aged hin.synced hin.readable rfl (Except.ok.inj hmap), Or.inl le_rfl⟩

lemma Reachable.nonempty (h : Reachable index root chain st) : 0 < chain.length := by
  induction h with
  | startUp => simp
  | processNewBlock _ _ _ ih =>
    rw [length_append]
    omega
  | createNewBlock _ _ ih => exact ih

lemma Reachable.ready (h : Reachable index root chain st) (hroot : ∀ mpt, root mpt ≠ [])
    (hplain : PlainUpTo index chain (chain.length - MIN_MUTABLETX_AGE)) : Ready index root chain st := by
  induction h with
  | startUp hbuild hall hstart => exact ready_startUp (hplain.mono (le_next _)) hbuild hall hstart
  | processNewBlock hreach hone hrun ih =>
    exact (ih (plainUpTo_of_connected hreach.nonempty hplain)).processNewBlock hroot hone hplain hrun
  | createNewBlock _ hrun ih => exact (ih hplain).createNewBlock hroot hplain hrun

end Reachable

end MutableBitcoin

/-!
## The root for the next block

The root that `CreateNewBlock` puts into a block is the root of the map of the active chain.
-/

namespace MutableBitcoin
open Lib List

section Reachable

end Reachable

section Disconnect

variable {sha256 : Bytes → Uint256} {index : Uint256 → Option ℕ} {A : Uint256 → Prop}
  {chain disk : List (CBlock sha256)} {block : CBlock sha256}

lemma StoredVersion.dropLast (h : StoredVersion index A (chain ++ [block]) disk) :
    StoredVersion index A chain disk.dropLast := by
  have hlen := h.length
  rw [length_append, length_singleton] at hlen
  have hget : ∀ {c : ℕ} {C₀ C : CBlock sha256}, chain[c]? = some C₀ → disk.dropLast[c]? = some C →
      (chain ++ [block])[c]? = some C₀ ∧ disk[c]? = some C := by
    intro c C₀ C hC₀ hC
    have hlt := (List.getElem?_eq_some_iff.mp hC₀).1
    rw [getElem?_dropLast, if_pos (by omega)] at hC
    exact ⟨by rw [getElem?_append_left hlt, hC₀], hC⟩
  constructor
  · rw [length_dropLast]
    omega
  · intro c C₀ C hC₀ hC
    exact h.ids (hget hC₀ hC).1 (hget hC₀ hC).2
  · intro c i C₀ C tx₀ tx hC₀ hC
    exact h.redacted (hget hC₀ hC).1 (hget hC₀ hC).2
  · intro c i C₀ C tx₀ tx hC₀ hC
    exact h.received (hget hC₀ hC).1 (hget hC₀ hC).2

end Disconnect

section Disconnected

variable (rest : List (CBlock cSHA256))

/-- The root that tells whether the trie has `mutableTx`. -/
def dataRoot : Trie → Str := keyRoot mutableTx.hash.getHex

lemma dataRoot_ne_nil (mpt : Trie) : dataRoot mpt ≠ [] := by
  simp [dataRoot, keyRoot]

lemma versionsAt_one (index : Uint256 → Option ℕ) : versionsAt index (mutantChain rest) 1 = [] := by
  have hnone : ∀ txout ∈ mutableTx.vout, mutantOf txout.scriptPubKey = none := by decide +kernel
  have heff : effective index (mutantChain rest) 1 [] mutableTx.vout = [] := by
    apply effective_of_skips
    intro m hm
    rw [hnone _ (mem_singleton_self _)] at hm
    cases hm
  rw [versionsAt_eq rfl]
  show versions index (mutantChain rest) 1 [] mutableTx.vout = []
  rw [versions, heff, filterMap_nil]

lemma redacted_one (index : Uint256 → Option ℕ) (hash : Uint256) :
    ¬Redacted index (mutantChain rest) 1 hash := by
  rintro ⟨c, block, h1, hc, hblock, txout, hout, m, hm, -⟩
  have hnone : ∀ txout ∈ mutableTx.vout, mutantOf txout.scriptPubKey = none := by decide +kernel
  obtain rfl : c = 1 := by omega
  obtain rfl := Option.some.inj hblock
  rw [hnone txout hout] at hm
  cases hm

lemma exists_applies_mutantTx : ∃ newTX, Applies (txIndex (mutantChain rest)) (mutantChain rest) 2 []
    ⟨0, hideScript mutableTx.hash⟩ ⟨.hide, mutableTx.hash.getHex⟩ mutableTx newTX 1 := by
  obtain ⟨newTX, hred⟩ : ∃ newTX, redactTransaction .hide mutableTx = some newTX :=
    redactTransaction_isSome (singleTransaction_below _ _ _) (k := 0) rfl
  exact ⟨newTX, mutantOf_hideScript _,
    findMutable_hide (getTransaction_mutableTx rest) plain_mutableTx (by decide), by simp, hred⟩

lemma versionMap_two_isSome :
    (versionMap (txIndex (mutantChain rest)) (mutantChain rest) 2 mutableTx.hash.getHex).isSome = true := by
  obtain ⟨newTX, happlies⟩ := exists_applies_mutantTx rest
  have hkey : newTX.hash = mutableTx.hash :=
    (happlies.hash_eq plain_mutableTx).trans (uint256S_getHex _)
  apply isSome_insertAll_of_mem
  rw [versionsAt_eq rfl]
  show _ ∈ (versions _ (mutantChain rest) 2 [] [⟨0, hideScript mutableTx.hash⟩]).map Prod.fst
  rw [versions, happlies.effective, filterMap_cons, happlies.versionOf, hkey]
  exact mem_cons_self

def shortChain : List (CBlock cSHA256) := mutantChain (minedBlocks 3 98)

def longBlocks : List (CBlock cSHA256) := minedBlocks 3 99

def longIndex : Uint256 → Option ℕ := txIndex (mutantChain longBlocks)

lemma longChain_eq : mutantChain longBlocks = shortChain ++ [blockOf [minedTx 101]] := by
  simp [mutantChain, mutantBlocks, longBlocks, shortChain, minedBlocks, range'_concat]

lemma length_shortChain : shortChain.length = 101 := by
  simp [shortChain, mutantChain, mutantBlocks, minedBlocks]

lemma aged_longChain : aged (mutantChain longBlocks) = 1 := by
  simp [aged, longChain_eq, length_shortChain, MIN_MUTABLETX_AGE]

lemma length_longChain_sub : (mutantChain longBlocks).length - MIN_MUTABLETX_AGE = 2 := by
  simp [longChain_eq, length_shortChain, MIN_MUTABLETX_AGE]

lemma scannable_longChain : ScannableUpTo longIndex (mutantChain longBlocks)
    ((mutantChain longBlocks).length - MIN_MUTABLETX_AGE) := by
  rw [length_longChain_sub]
  exact scannable_mutantBlocks _

end Disconnected

end MutableBitcoin
