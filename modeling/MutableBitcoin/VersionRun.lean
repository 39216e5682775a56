import MutableBitcoin.Lib.ExceptOk
import MutableBitcoin.VersionMap

/-!
# The trie along the chain

The trie of versions is either the map of the blocks that are old enough at the tip, or it already
has the instructions of the next one.
-/

namespace MutableBitcoin
open Lib List

variable {sha256 : Bytes → Uint256} {index : Uint256 → Option ℕ} {root : Trie → Str}
  {chain : List (CBlock sha256)} {st st' : VersionState sha256}

section Ages

lemma aged_append (chain : List (CBlock sha256)) (block : CBlock sha256) :
    aged (chain ++ [block]) = chain.length - MIN_MUTABLETX_AGE := by
  simp [aged]

lemma succ_aged (h : MIN_MUTABLETX_AGE < chain.length) :
    aged chain + 1 = chain.length - MIN_MUTABLETX_AGE := by
  unfold aged
  omega

lemma aged_of_young (h : ¬MIN_MUTABLETX_AGE < chain.length) :
    aged chain = chain.length - MIN_MUTABLETX_AGE := by
  unfold aged
  omega

lemma aged_lt (h : 0 < chain.length) : aged chain < chain.length := by
  unfold aged
  omega

lemma PlainUpTo.mono {m n : ℕ} (h : PlainUpTo index chain n) (hmn : m ≤ n) : PlainUpTo index chain m :=
  fun c block h1 hc hblock => h c block h1 (hc.trans hmn) hblock

lemma le_next (chain : List (CBlock sha256)) : aged chain ≤ chain.length - MIN_MUTABLETX_AGE := by
  unfold aged
  omega

end Ages

section NextVersions

variable (index : Uint256 → Option ℕ) (chain : List (CBlock sha256))

def nextVersions : List (Str × Str) :=
  if MIN_MUTABLETX_AGE < chain.length then versionsAt index chain (aged chain + 1) else []

lemma insertAll_nextVersions :
    insertAll (versionMap index chain (aged chain)) (nextVersions index chain) =
      versionMap index chain (chain.length - MIN_MUTABLETX_AGE) := by
  unfold nextVersions
  split_ifs with hold
  · rw [← succ_aged hold, versionMap]
  · rw [insertAll_nil, aged_of_young hold]

end NextVersions

/-- The blocks on disk are synced with the chain, and the trie has every id that is redacted. -/
structure Prepared (index : Uint256 → Option ℕ) (chain : List (CBlock sha256)) (st : VersionState sha256) :
    Prop where
  synced : Synced index chain st.disk
  readable : ReadableUpTo chain (aged chain)
  init : st.fMPTinit = true
  present : ∀ hash, Redacted index chain (aged chain) hash → (st.mpt hash.getHex).isSome = true

/-- With the next block's instructions the trie is the map of the chain. -/
structure InStep (index : Uint256 → Option ℕ) (chain : List (CBlock sha256)) (st : VersionState sha256) :
    Prop extends Prepared index chain st where
  next : insertAll st.mpt (nextVersions index chain) =
    versionMap index chain (chain.length - MIN_MUTABLETX_AGE)

section InStep

lemma Synced.present (h : Synced index chain st.disk) {hash : Uint256}
    (hred : Redacted index chain (aged chain) hash) :
    (versionMap index chain (aged chain) hash.getHex).isSome = true := by
  obtain ⟨tx, c, -, hval⟩ := h.agrees.value hred
  rw [hval]
  rfl

lemma inStep_of_aged (hsynced : Synced index chain st.disk) (hread : ReadableUpTo chain (aged chain))
    (hinit : st.fMPTinit = true) (hmpt : st.mpt = versionMap index chain (aged chain)) :
    InStep index chain st where
  synced := hsynced
  readable := hread
  init := hinit
  present hash hred := by
    rw [hmpt]
    exact hsynced.present hred
  next := by
    rw [hmpt]
    exact insertAll_nextVersions index chain

lemma Synced.height_eq (h : Synced index chain st.disk) : st.height + 1 = chain.length := by
  have hlen := h.stored.length
  have hpos := h.nonempty
  unfold VersionState.height
  omega

lemma Prepared.initMerkelPatriciaTree_eq (h : Prepared index chain st)
    (hplain : PlainUpTo index chain (aged chain)) :
    initMerkelPatriciaTree index st = .ok { st with nMPTActiveHight := st.height } := by
  unfold initMerkelPatriciaTree
  rw [h.synced.createTrie_of_present hplain h.readable h.present, ok_bind, ← h.init]
  rfl

lemma Prepared.activeHight_eq (h : Prepared index chain st) (hplain : PlainUpTo index chain (aged chain)) :
    (if st.nMPTActiveHight = st.height then .ok st else initMerkelPatriciaTree index st) =
      .ok { st with nMPTActiveHight := st.height } := by
  by_cases hactive : st.nMPTActiveHight = st.height
  · rw [if_pos hactive, ← hactive]
  · rw [if_neg hactive]
    exact h.initMerkelPatriciaTree_eq hplain

end InStep

section HotBlock

variable {b : ℕ} {B : CBlock sha256}

lemma applyHotBlock_eq_map (hage : st.height + 1 - MIN_MUTABLETX_AGE = b + 1)
    (hB : st.disk[b + 1]? = some B) :
    applyHotBlock index root st =
      (ofScan ((mutantOutputs B).foldlM (processOutput index .nextMPTRoot (b + 1))
        ⟨st.disk, st.mpt, []⟩)).map
        (fun sc => { st with
          mpt := sc.mpt
          nMPTActiveHight := st.nMPTActiveHight + 1
          mptList := Function.update st.mptList (st.height + 1) (root sc.mpt) }) := by
  unfold applyHotBlock
  rw [if_pos (by omega), hage]
  dsimp only
  rw [hB]
  dsimp only
  rw [checkBlockUChain_nextMPTRoot (by omega), scanBlock]
  cases (mutantOutputs B).foldlM (processOutput index .nextMPTRoot (b + 1)) ⟨st.disk, st.mpt, []⟩ with
  | none => rfl
  | some sc => simp [storeTempRootMerkelPatriciaTreeCache, ofScan, ok_bind, pure, Except.pure, Except.map]

lemma updateHotBlock_eq_map (hage : st.height - MIN_MUTABLETX_AGE = b + 1)
    (hB : st.disk[b + 1]? = some B) :
    updateHotBlock index root st =
      (ofScan ((mutantOutputs B).foldlM (processOutput index .updatehotBlock (b + 1))
        ⟨st.disk, st.mpt, []⟩)).map
        (fun sc => { st with
          disk := sc.disk
          mpt := sc.mpt
          mptList := Function.update st.mptList st.height (root sc.mpt) }) := by
  unfold updateHotBlock
  rw [if_pos (by omega), hage]
  dsimp only
  rw [hB]
  dsimp only
  rw [checkBlockUChain_updatehotBlock (by omega), scanBlock]
  cases (mutantOutputs B).foldlM (processOutput index .updatehotBlock (b + 1)) ⟨st.disk, st.mpt, []⟩ with
  | none => rfl
  | some sc => simp [storeTempRootMerkelPatriciaTreeCache, ofScan, ok_bind, pure, Except.pure, Except.map]

lemma updateHotBlock_of_young (hyoung : ¬MIN_MUTABLETX_AGE < st.height) :
    updateHotBlock index root st = .ok st := if_neg hyoung

lemma succ_aged_lt (hold : MIN_MUTABLETX_AGE < chain.length) : aged chain + 1 < chain.length := by
  have hage := succ_aged hold
  have : 0 < MIN_MUTABLETX_AGE := by decide
  omega

end HotBlock

section GetNext

/-- The state that `getNextRootMerkelPatriciaTree` leaves for a trie `mpt`: the trie for the next block
and, if a block becomes old enough, its root in the list. -/
def VersionState.advance (st : VersionState sha256) (root : Trie → Str) (mpt : Trie) :
    VersionState sha256 :=
  { st with
    mpt := mpt
    nMPTActiveHight := st.height + 1
    mptList := if MIN_MUTABLETX_AGE < st.height + 1 then
        Function.update st.mptList (st.height + 1) (root mpt)
      else st.mptList }

section Fields

variable (st : VersionState sha256) (root : Trie → Str) (mpt : Trie)

@[simp] lemma VersionState.advance_nMPTActiveHight :
    (st.advance root mpt).nMPTActiveHight = st.height + 1 := rfl

lemma VersionState.advance_mptList (h : MIN_MUTABLETX_AGE < st.height + 1) :
    (st.advance root mpt).mptList (st.height + 1) = root mpt := by
  unfold VersionState.advance
  rw [if_pos h]
  exact Function.update_self ..

end Fields

lemma applyHotBlock_eq (hrun : applyHotBlock index root st = .ok st')
    (h : Synced index chain st.disk) (hplain : PlainUpTo index chain (chain.length - MIN_MUTABLETX_AGE))
    (hactive : st.nMPTActiveHight = st.height) :
    st' = st.advance root (insertAll st.mpt (nextVersions index chain)) := by
  have hheight := h.height_eq
  unfold VersionState.advance nextVersions
  rw [hheight]
  by_cases hold : MIN_MUTABLETX_AGE < chain.length
  · obtain ⟨B₀, B, hB₀, hB, houts⟩ := h.exists_block (Nat.le_succ _) (succ_aged_lt hold)
    rw [applyHotBlock_eq_map (by rw [hheight, succ_aged hold]) hB, houts, map_ofScan_eq_ok_iff] at hrun
    obtain ⟨sc, hfold, rfl⟩ := hrun
    have htargets := hplain (aged chain + 1) B₀ (by omega) (succ_aged hold).le hB₀
    have hmpt : sc.mpt = insertAll st.mpt (versionsAt index chain (aged chain + 1)) := by
      rw [scan_mpt (by decide) h.stored htargets hfold, versionsAt_eq hB₀]
    rw [if_pos hold, if_pos hold, ← hmpt, hactive, hheight]
  · unfold applyHotBlock at hrun
    rw [hheight, if_neg hold] at hrun
    obtain rfl := Except.ok.inj hrun
    rw [if_neg hold, if_neg hold, hactive, hheight, insertAll_nil]

lemma Prepared.getNextRootMerkelPatriciaTree_eq (h : Prepared index chain st)
    (hplain : PlainUpTo index chain (chain.length - MIN_MUTABLETX_AGE)) {r : Str}
    (hrun : getNextRootMerkelPatriciaTree index root st = .ok (r, st')) :
    r = root (insertAll st.mpt (nextVersions index chain)) ∧
      st' = st.advance root (insertAll st.mpt (nextVersions index chain)) := by
  unfold getNextRootMerkelPatriciaTree at hrun
  rw [if_pos h.init, ok_bind, h.activeHight_eq (hplain.mono (le_next chain)), ok_bind] at hrun
  obtain ⟨-, hrun⟩ := unit_bind_eq_ok_iff.mp hrun
  obtain ⟨st'', happly, hrun⟩ := bind_eq_ok_iff.mp hrun
  obtain ⟨-, heq⟩ := unit_bind_eq_ok_iff.mp hrun
  obtain ⟨rfl, rfl⟩ := Prod.mk.inj (Except.ok.inj heq)
  obtain rfl := applyHotBlock_eq happly h.synced hplain rfl
  exact ⟨rfl, rfl⟩

lemma InStep.getNextRootMerkelPatriciaTree_eq (h : InStep index chain st)
    (hplain : PlainUpTo index chain (chain.length - MIN_MUTABLETX_AGE)) {r : Str}
    (hrun : getNextRootMerkelPatriciaTree index root st = .ok (r, st')) :
    r = root (versionMap index chain (chain.length - MIN_MUTABLETX_AGE)) ∧
      st' = st.advance root (versionMap index chain (chain.length - MIN_MUTABLETX_AGE)) := by
  rw [← h.next]
  exact h.toPrepared.getNextRootMerkelPatriciaTree_eq hplain hrun

lemma InStep.advance (h : InStep index chain st) :
    InStep index chain
      (st.advance root (versionMap index chain (chain.length - MIN_MUTABLETX_AGE))) where
  synced := h.synced
  readable := h.readable
  init := h.init
  present hash hred := by
    dsimp only [VersionState.advance]
    rw [← insertAll_nextVersions]
    exact isSome_insertAll_mono (h.synced.present hred)
  next := by
    dsimp only [VersionState.advance]
    rw [← insertAll_nextVersions, insertAll_insertAll]

end GetNext

section Update

variable {disk : List (CBlock sha256)} {B₀ : CBlock sha256} {A : Uint256 → Prop} {mpt₀ mpt : Trie}
  {sc : ScanState sha256} {n : ℕ}

lemma scan_hotBlock (hstored : StoredVersion index A chain disk) (hagrees : Agrees index A disk mpt₀)
    (hB₀ : chain[n + 1]? = some B₀)
    (hA : (fun x => A x ∨ Targets index chain (n + 1) (mutantOutputs B₀) x) =
      Redacted index chain (n + 1))
    (hmap : insertAll mpt₀ (versionsAt index chain (n + 1)) = versionMap index chain (n + 1))
    (hplain : PlainTargets index chain (n + 1) (mutantOutputs B₀))
    (hfold : (mutantOutputs B₀).foldlM (processOutput index .updatehotBlock (n + 1))
      ⟨disk, mpt, []⟩ = some sc) :
    StoredVersion index (Redacted index chain (n + 1)) chain sc.disk ∧
      Agrees index (Redacted index chain (n + 1)) sc.disk (versionMap index chain (n + 1)) ∧
      sc.mpt = insertAll mpt (versionsAt index chain (n + 1)) := by
  obtain ⟨hstored', hagrees'⟩ := scan_updatehotBlock hstored hplain (by simp) hfold
  rw [hA] at hstored' hagrees'
  rw [versionsAt_eq hB₀] at hmap ⊢
  refine ⟨hstored', ?_, scan_mpt (by decide) hstored hplain hfold⟩
  rw [← hmap]
  exact hagrees' _ hagrees

lemma readableUpTo_append {n : ℕ} (block : CBlock sha256) (h : ReadableUpTo chain n)
    (hn : n < chain.length) : ReadableUpTo (chain ++ [block]) n := by
  intro c C h1 hc hC
  rw [getElem?_append_left (by omega)] at hC
  exact h c C h1 hc hC

lemma InStep.updateHotBlock_append (h : InStep index chain st) (block : CBlock sha256)
    (hplain : PlainUpTo index (chain ++ [block]) (aged (chain ++ [block])))
    (hrun : updateHotBlock index root { st with disk := st.disk ++ [block] } = .ok st') :
    InStep index (chain ++ [block]) st' ∧
      st'.mpt = versionMap index (chain ++ [block]) (aged (chain ++ [block])) ∧
      st'.nMPTActiveHight = st.nMPTActiveHight := by
  have hpos := h.synced.nonempty
  have hlen := h.synced.stored.length
  have hnext := h.next
  unfold nextVersions at hnext
  have hnew : ({ st with disk := st.disk ++ [block] } : VersionState sha256).height = chain.length := by
    simp [VersionState.height, hlen]
  obtain ⟨hstored, hagrees⟩ := h.synced.append block
  by_cases hold : MIN_MUTABLETX_AGE < chain.length
  · have hage := succ_aged hold
    have haged : aged (chain ++ [block]) = aged chain + 1 := by rw [aged_append, hage]
    have hlt := succ_aged_lt hold
    obtain ⟨B₀, B, hB₀, hB, houts⟩ := h.synced.exists_block (Nat.le_succ _) hlt
    replace hB₀ : (chain ++ [block])[aged chain + 1]? = some B₀ := by
      rw [getElem?_append_left hlt, hB₀]
    replace hB : (st.disk ++ [block])[aged chain + 1]? = some B := by
      rw [getElem?_append_left (hlen ▸ hlt), hB]
    rw [updateHotBlock_eq_map (by rw [hnew, hage]) hB, houts, map_ofScan_eq_ok_iff] at hrun
    obtain ⟨sc, hfold, rfl⟩ := hrun
    have htargets := hplain (aged chain + 1) B₀ (by omega) haged.ge hB₀
    obtain ⟨hstored', hagrees', hmpt⟩ :=
      scan_hotBlock hstored hagrees hB₀ (redacted_succ hB₀).symm rfl htargets hfold
    have htrie : sc.mpt = versionMap index (chain ++ [block]) (aged chain + 1) := by
      rw [hmpt, versionsAt_append [block] hlt, versionMap_append [block] hlt, hage, ← hnext, if_pos hold,
        hage]
    have hread : ReadableUpTo (chain ++ [block]) (aged chain + 1) := by
      intro c C h1 hc hC
      rcases Nat.lt_or_eq_of_le hc with hc | rfl
      · exact readableUpTo_append block h.readable (aged_lt hpos) c C h1 (by omega) hC
      · obtain rfl := Option.some.inj (hB₀.symm.trans hC)
        exact readable_of_scan (by decide) hstored htargets hfold
    rw [← haged] at hstored' hagrees' htrie hread
    exact ⟨inStep_of_aged ⟨by simp, hstored', hagrees'⟩ hread h.init htrie, htrie, rfl⟩
  · have haged : aged (chain ++ [block]) = aged chain := by rw [aged_append, aged_of_young hold]
    rw [updateHotBlock_of_young (by rwa [hnew])] at hrun
    obtain rfl := Except.ok.inj hrun
    rw [if_neg hold, insertAll_nil, ← aged_of_young hold] at hnext
    have htrie : st.mpt = versionMap index (chain ++ [block]) (aged chain) := by
      rw [versionMap_append [block] (aged_lt hpos), hnext]
    have hread := readableUpTo_append block h.readable (aged_lt hpos)
    rw [← haged] at hstored hagrees htrie hread
    exact ⟨inStep_of_aged ⟨by simp, hstored, hagrees⟩ hread h.init htrie, htrie, rfl⟩

lemma Prepared.updateHotBlock_eq (h : Prepared index chain st)
    (hplain : PlainUpTo index chain (aged chain)) (hpos : 0 < aged chain)
    (hrun : updateHotBlock index root st = .ok st') :
    ∃ disk, Synced index chain disk ∧ st' = { st with
      disk := disk
      mpt := insertAll st.mpt (versionsAt index chain (aged chain))
      mptList := Function.update st.mptList st.height
        (root (insertAll st.mpt (versionsAt index chain (aged chain)))) } := by
  have hheight := h.synced.height_eq
  have hlt := aged_lt h.synced.nonempty
  obtain ⟨b, hb⟩ := Nat.exists_eq_add_of_le' hpos
  have hage : st.height - MIN_MUTABLETX_AGE = b + 1 := by
    rw [← hb, aged, ← hheight]
    rfl
  rw [hb] at hlt
  obtain ⟨B₀, B, hB₀, hB, houts⟩ := h.synced.exists_block hb.le hlt
  rw [updateHotBlock_eq_map hage hB, houts, map_ofScan_eq_ok_iff] at hrun
  obtain ⟨sc, hfold, rfl⟩ := hrun
  have hstored := h.synced.stored
  have hagrees := h.synced.agrees
  rw [hb] at hstored hagrees hplain
  have hA : (fun x => Redacted index chain (b + 1) x ∨
      Targets index chain (b + 1) (mutantOutputs B₀) x) = Redacted index chain (b + 1) := by
    rw [redacted_succ hB₀]
    funext x
    simp only [or_assoc, or_self]
  have hmap : insertAll (versionMap index chain (b + 1)) (versionsAt index chain (b + 1)) =
      versionMap index chain (b + 1) := by
    rw [versionMap, insertAll_insertAll]
  obtain ⟨hstored', hagrees', hmpt⟩ := scan_hotBlock hstored hagrees hB₀ hA hmap
    (hplain (b + 1) B₀ (by omega) le_rfl hB₀) hfold
  rw [hb, ← hmpt]
  rw [← hb] at hstored' hagrees'
  exact ⟨sc.disk, ⟨h.synced.nonempty, hstored', hagrees'⟩, rfl⟩

lemma InStep.updateHotBlock_again (h : InStep index chain st)
    (hplain : PlainUpTo index chain (aged chain)) (hrun : updateHotBlock index root st = .ok st') :
    InStep index chain st' := by
  have hheight := h.synced.height_eq
  have hnext := h.next
  rw [← insertAll_nextVersions] at hnext
  by_cases hpos : 0 < aged chain
  · obtain ⟨disk, hsynced, rfl⟩ := h.toPrepared.updateHotBlock_eq hplain hpos hrun
    have hagain : insertAll (insertAll st.mpt (versionsAt index chain (aged chain)))
        (nextVersions index chain) = insertAll st.mpt (nextVersions index chain) := by
      obtain ⟨b, hb⟩ := Nat.exists_eq_add_of_le' hpos
      rw [hb] at hnext ⊢
      exact insertAll_again hnext
    refine ⟨⟨hsynced, h.readable, h.init, ?_⟩, ?_⟩
    · intro hash hred
      exact isSome_insertAll_mono (h.present hash hred)
    · exact hagain.trans h.next
  · unfold aged at hpos
    rw [updateHotBlock_of_young (by omega)] at hrun
    obtain rfl := Except.ok.inj hrun
    exact h

end Update

section Exists

variable {n : ℕ}

/-- The blocks 1 to `n` can be scanned. -/
def ScannableUpTo (index : Uint256 → Option ℕ) (chain : List (CBlock sha256)) (n : ℕ) : Prop :=
  ∀ c block, 1 ≤ c → c ≤ n → chain[c]? = some block → Scannable index chain c (mutantOutputs block)

lemma ScannableUpTo.plain (h : ScannableUpTo index chain n) : PlainUpTo index chain n :=
  fun c block h1 hc hblock => (h c block h1 hc hblock).plain

lemma ScannableUpTo.mono {m : ℕ} (h : ScannableUpTo index chain n) (hmn : m ≤ n) :
    ScannableUpTo index chain m :=
  fun c block h1 hc hblock => h c block h1 (hc.trans hmn) hblock

lemma scannableUpTo_of_append {rest : List (CBlock sha256)} (hn : n < chain.length)
    (h : ScannableUpTo index (chain ++ rest) n) : ScannableUpTo index chain n := by
  intro c block h1 hc hblock
  have hlt : c < chain.length := by omega
  obtain ⟨hread, hplain, hbelow⟩ := h c block h1 hc (by rw [getElem?_append_left hlt, hblock])
  refine ⟨hread, (plainTargets_append hlt.le _).mp hplain, ?_⟩
  simpa only [findMutable_append hlt.le] using hbelow

lemma exists_applyHotBlock (h : Synced index chain st.disk)
    (hscan : ScannableUpTo index chain (chain.length - MIN_MUTABLETX_AGE)) :
    ∃ st', applyHotBlock index root st = .ok st' := by
  have hheight := h.height_eq
  by_cases hold : MIN_MUTABLETX_AGE < chain.length
  · obtain ⟨B₀, B, hB₀, hB, houts⟩ := h.exists_block (Nat.le_succ _) (succ_aged_lt hold)
    obtain ⟨sc, hfold⟩ : ∃ sc, (mutantOutputs B₀).foldlM
        (processOutput index .nextMPTRoot (aged chain + 1)) ⟨st.disk, st.mpt, []⟩ = some sc :=
      exists_scan (by decide) h.stored (hscan (aged chain + 1) B₀ (by omega) (succ_aged hold).le hB₀)
    rw [applyHotBlock_eq_map (by rw [hheight, succ_aged hold]) hB, houts, hfold]
    exact ⟨_, rfl⟩
  · unfold applyHotBlock
    rw [hheight, if_neg hold]
    exact ⟨_, rfl⟩

lemma Prepared.exists_getNextRootMerkelPatriciaTree (h : Prepared index chain st)
    (hscan : ScannableUpTo index chain (chain.length - MIN_MUTABLETX_AGE)) :
    getNextRootMerkelPatriciaTree index root st =
      .ok (root (insertAll st.mpt (nextVersions index chain)),
        st.advance root (insertAll st.mpt (nextVersions index chain))) := by
  obtain ⟨st', happly⟩ : ∃ st', applyHotBlock index root { st with nMPTActiveHight := st.height } =
      .ok st' := exists_applyHotBlock h.synced hscan
  obtain rfl := applyHotBlock_eq happly h.synced hscan.plain rfl
  unfold getNextRootMerkelPatriciaTree
  rw [if_pos h.init, ok_bind, h.activeHight_eq (hscan.plain.mono (le_next chain)), ok_bind]
  apply unit_bind_eq_ok_iff.mpr
  refine ⟨requireThat_pos rfl, bind_eq_ok_iff.mpr ⟨_, happly, ?_⟩⟩
  exact unit_bind_eq_ok_iff.mpr ⟨requireThat_pos rfl, rfl⟩

lemma InStep.exists_getNextRootMerkelPatriciaTree (h : InStep index chain st)
    (hscan : ScannableUpTo index chain (chain.length - MIN_MUTABLETX_AGE)) :
    getNextRootMerkelPatriciaTree index root st =
      .ok (root (versionMap index chain (chain.length - MIN_MUTABLETX_AGE)),
        st.advance root (versionMap index chain (chain.length - MIN_MUTABLETX_AGE))) := by
  rw [← h.next]
  exact h.toPrepared.exists_getNextRootMerkelPatriciaTree hscan

lemma exists_updateHotBlock (block : CBlock sha256) (h : InStep index chain st)
    (hscan : ScannableUpTo index (chain ++ [block]) (aged (chain ++ [block]))) :
    ∃ st', updateHotBlock index root { st with disk := st.disk ++ [block] } = .ok st' := by
  have hlen := h.synced.stored.length
  have hnew : ({ st with disk := st.disk ++ [block] } : VersionState sha256).height = chain.length := by
    simp [VersionState.height, hlen]
  by_cases hold : MIN_MUTABLETX_AGE < chain.length
  · have hlt := succ_aged_lt hold
    obtain ⟨B₀, B, hB₀, hB, houts⟩ := h.synced.exists_block (Nat.le_succ _) hlt
    replace hB₀ : (chain ++ [block])[aged chain + 1]? = some B₀ := by
      rw [getElem?_append_left hlt, hB₀]
    replace hB : (st.disk ++ [block])[aged chain + 1]? = some B := by
      rw [getElem?_append_left (hlen ▸ hlt), hB]
    obtain ⟨sc, hfold⟩ : ∃ sc, (mutantOutputs B₀).foldlM (processOutput index .updatehotBlock
        (aged chain + 1)) ⟨st.disk ++ [block], st.mpt, []⟩ = some sc :=
      exists_scan (by decide) (h.synced.append block).1
        (hscan (aged chain + 1) B₀ (by omega) (by rw [aged_append, succ_aged hold]) hB₀)
    rw [updateHotBlock_eq_map (by rw [hnew, succ_aged hold]) hB, houts, hfold]
    exact ⟨_, rfl⟩
  · exact ⟨_, updateHotBlock_of_young (by rwa [hnew])⟩

lemma Prepared.exists_updateHotBlock (h : Prepared index chain st)
    (hscan : ScannableUpTo index chain (aged chain)) :
    ∃ st', updateHotBlock index root st = .ok st' := by
  have hheight := h.synced.height_eq
  by_cases hpos : 0 < aged chain
  · have hage : st.height - MIN_MUTABLETX_AGE = aged chain - 1 + 1 := by
      unfold aged at hpos ⊢
      omega
    have hlt : aged chain - 1 + 1 < chain.length := by
      unfold aged at hpos ⊢
      omega
    obtain ⟨B₀, B, hB₀, hB, houts⟩ := h.synced.exists_block (by omega) hlt
    obtain ⟨sc, hfold⟩ : ∃ sc, (mutantOutputs B₀).foldlM (processOutput index .updatehotBlock
        (aged chain - 1 + 1)) ⟨st.disk, st.mpt, []⟩ = some sc :=
      exists_scan (by decide) h.synced.stored (hscan _ B₀ (by omega) (by omega) hB₀)
    rw [updateHotBlock_eq_map hage hB, houts, hfold]
    exact ⟨_, rfl⟩
  · exact ⟨_, updateHotBlock_of_young (by unfold aged at hpos; omega)⟩

end Exists

end MutableBitcoin
