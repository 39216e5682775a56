import MutableBitcoin.Disconnect
import MutableBitcoin.CoinsMap
import MutableBitcoin.ActiveChain

/-!
# What `GetTransaction` looks at

`GetTransaction` of `validation.cpp` looks at the mempool, at the index of transactions if the node keeps one, and
at the unspent coins. All of this is local to a node.
-/

namespace MutableBitcoin
open Lib CCoinsViewCache Option List

/-- What `GetTransaction` reads of a node. -/
structure LookupState (sha256 : Bytes → Uint256) where
  fTxIndex : Bool
  txIndex : Uint256 → Option ℕ
  mempool : Uint256 → Option (CTransaction sha256)
  pcoinsTip : CCoinsViewCache

section Lookup

variable {sha256 : Bytes → Uint256}

def storedAt (disk : List (CBlock sha256)) (hash : Uint256) (hight : ℕ) : Option (CTransaction sha256) := do
  let block ← disk[hight]?
  let i ← block.vtx.findIdx? (fun tx => tx.hash = hash)
  block.vtx[i]?

namespace LookupState

variable (node : LookupState sha256)

/-- `pblocktree->ReadTxIndex`, if there is an index. -/
def readTxIndex (hash : Uint256) : Option ℕ := if node.fTxIndex then node.txIndex hash else none

def coinHight (hash : Uint256) : Option ℕ :=
  let coin := (accessByTxid node.pcoinsTip hash).2
  if !coin.isSpent then some coin.nHeight else none

/-- The height of the block that `GetTransaction` looks into. -/
def locate (hash : Uint256) : Option ℕ :=
  match node.mempool hash with
  | some _ => none
  | none =>
    match node.readTxIndex hash with
    | some hight => some hight
    | none => node.coinHight hash

end LookupState

lemma getTransaction_eq_storedAt (index : Uint256 → Option ℕ) (disk : List (CBlock sha256)) (hash : Uint256) :
    getTransaction index disk hash =
      (index hash).bind (fun hight => (storedAt disk hash hight).map (fun tx => (tx, hight))) := by
  unfold getTransaction storedAt
  cases index hash with
  | none => rfl
  | some hight =>
    simp only [bind_eq_bind, bind_some, map_eq_bind, bind_assoc]
    rfl

end Lookup

section Coins

variable {view : CCoinsViewCache} {hash : Uint256}

/-- The first unspent output with an id, among those that `AccessByTxid` looks at. -/
structure FirstUnspent (view : CCoinsViewCache) (hash : Uint256) (n : ℕ) (coin : Coin) : Prop where
  lt : n < MAX_OUTPUTS_PER_BLOCK
  coin : view.coins ⟨hash, UInt32.ofNat n⟩ = some coin
  before : ∀ i < n, view.coins ⟨hash, UInt32.ofNat i⟩ = none

lemma accessCoin_of_coins {o : COutPoint} {coin : Coin} (h : view.coins o = some coin) :
    view.accessCoin o = coin := by
  unfold coins at h
  unfold accessCoin
  obtain ⟨entry, hlookup, hunspent⟩ := bind_eq_some_iff.mp h
  rw [hlookup]
  unfold Coin.unspent at hunspent
  split_ifs at hunspent
  exact Option.some.inj hunspent

lemma isSpent_accessCoin_of_none {o : COutPoint} (h : view.coins o = none) :
    (view.accessCoin o).isSpent = true := by
  unfold coins at h
  unfold accessCoin
  cases hlookup : view.lookup o with
  | none => rfl
  | some entry =>
    rw [hlookup] at h
    exact unspent_eq_none_iff.mp h

lemma accessByTxidFrom_spec (hash : Uint256) (view : CCoinsViewCache) (left n : ℕ) :
    ((accessByTxidFrom hash view left (UInt32.ofNat n)).2.isSpent = true ∧
        ∀ i, n ≤ i → i < n + left → view.coins ⟨hash, UInt32.ofNat i⟩ = none) ∨
      ∃ k, n ≤ k ∧ k < n + left ∧
        view.coins ⟨hash, UInt32.ofNat k⟩ = some (accessByTxidFrom hash view left (UInt32.ofNat n)).2 ∧
        ∀ i, n ≤ i → i < k → view.coins ⟨hash, UInt32.ofNat i⟩ = none := by
  induction left generalizing view n with
  | zero => exact Or.inl ⟨rfl, fun i h1 h2 => by omega⟩
  | succ left ih =>
    unfold accessByTxidFrom
    dsimp only
    cases hcoin : view.coins ⟨hash, UInt32.ofNat n⟩ with
    | some coin =>
      rw [accessCoin_of_coins hcoin, isSpent_of_coins hcoin, Bool.not_false, if_pos rfl]
      exact Or.inr ⟨n, le_refl n, by omega, hcoin, fun i h1 h2 => by omega⟩
    | none =>
      rw [isSpent_accessCoin_of_none hcoin, Bool.not_true, if_neg Bool.false_ne_true]
      have hnext : UInt32.ofNat n + 1 = UInt32.ofNat (n + 1) := (UInt32.ofNat_add n 1).symm
      rw [hnext]
      have hfetch := ih (view.fetchCoin ⟨hash, UInt32.ofNat n⟩) (n + 1)
      rw [coins_fetchCoin] at hfetch
      rcases hfetch with ⟨hspent, hnone⟩ | ⟨k, hnk, hk, hfound, hbefore⟩
      · refine Or.inl ⟨hspent, ?_⟩
        intro i h1 h2
        rcases Nat.eq_or_lt_of_le h1 with rfl | h1
        · exact hcoin
        · exact hnone i h1 (by omega)
      · refine Or.inr ⟨k, by omega, by omega, hfound, ?_⟩
        intro i h1 h2
        rcases Nat.eq_or_lt_of_le h1 with rfl | h1
        · exact hcoin
        · exact hbefore i h1 h2

lemma FirstUnspent.unique {n n' : ℕ} {coin coin' : Coin} (h : FirstUnspent view hash n coin)
    (h' : FirstUnspent view hash n' coin') : n = n' ∧ coin = coin' := by
  have hn : n = n' := by
    rcases Nat.lt_trichotomy n n' with hlt | heq | hgt
    · have hnone := h'.before n hlt
      rw [h.coin] at hnone
      cases hnone
    · exact heq
    · have hnone := h.before n' hgt
      rw [h'.coin] at hnone
      cases hnone
  subst hn
  exact ⟨rfl, Option.some.inj (h.coin.symm.trans h'.coin)⟩

lemma coinHight_eq_some_iff {sha256 : Bytes → Uint256} (node : LookupState sha256) {c : ℕ} :
    node.coinHight hash = some c ↔
      ∃ n coin, FirstUnspent node.pcoinsTip hash n coin ∧ coin.nHeight = c := by
  have hspec := accessByTxidFrom_spec hash node.pcoinsTip MAX_OUTPUTS_PER_BLOCK 0
  unfold LookupState.coinHight accessByTxid
  rw [Nat.zero_add] at hspec
  dsimp only
  have hzero : UInt32.ofNat 0 = 0 := rfl
  rw [hzero] at hspec
  rcases hspec with ⟨hspent, hnone⟩ | ⟨k, -, hk, hfound, hbefore⟩
  · rw [hspent, Bool.not_true, if_neg Bool.false_ne_true]
    constructor
    · rintro ⟨⟩
    · rintro ⟨n, coin, h, -⟩
      have hcoin := h.coin
      rw [hnone n (Nat.zero_le n) h.lt] at hcoin
      cases hcoin
  · rw [isSpent_of_coins hfound, Bool.not_false, if_pos rfl, some_inj]
    have hfirst : FirstUnspent node.pcoinsTip hash k _ := ⟨hk, hfound, fun i hi => hbefore i (Nat.zero_le i) hi⟩
    constructor
    · intro hheight
      exact ⟨k, _, hfirst, hheight⟩
    · rintro ⟨n, coin, h, hheight⟩
      rw [← (h.unique hfirst).2]
      exact hheight

end Coins

section Agree

variable {sha256 : Bytes → Uint256} {index index' : Uint256 → Option ℕ} {disk : List (CBlock sha256)}

/-- The block of height `c` holds a mutable transaction for a mutant in the block of height `b`. -/
def Eligible (disk : List (CBlock sha256)) (b : ℕ) (hash : Uint256) (c : ℕ) : Prop :=
  c < b ∧ ∃ tx, storedAt disk hash c = some tx ∧ (firstOpReturn tx.vout).isSome = true

lemma findMutable_eq_some_iff_located {b c : ℕ} {m : Mutant} {tx : CTransaction sha256} :
    findMutable index disk b m = some (tx, c) ↔ index m.hashOldTX = some c ∧
      storedAt disk m.hashOldTX c = some tx ∧ (firstOpReturn tx.vout).isSome = true ∧ c < b := by
  rw [findMutable_eq_some_iff, getTransaction_eq_storedAt, bind_eq_some_iff]
  simp only [map_eq_some_iff, Prod.mk.injEq]
  constructor
  · rintro ⟨⟨c', hindex, tx', hstored, rfl, rfl⟩, hret, hlt⟩
    exact ⟨hindex, hstored, hret, hlt⟩
  · rintro ⟨hindex, hstored, hret, hlt⟩
    exact ⟨⟨c, hindex, tx, hstored, rfl, rfl⟩, hret, hlt⟩

lemma findMutable_eq_iff {b : ℕ} {m : Mutant} :
    findMutable index disk b m = findMutable index' disk b m ↔
      ∀ c, Eligible disk b m.hashOldTX c → (index m.hashOldTX = some c ↔ index' m.hashOldTX = some c) := by
  constructor
  · rintro hsame c ⟨hlt, tx, hstored, hret⟩
    have hiff : ∀ ix : Uint256 → Option ℕ, findMutable ix disk b m = some (tx, c) ↔ ix m.hashOldTX = some c := by
      intro ix
      rw [findMutable_eq_some_iff_located]
      exact ⟨And.left, fun h => ⟨h, hstored, hret, hlt⟩⟩
    rw [← hiff, ← hiff, hsame]
  · intro h
    ext ⟨tx, c⟩
    rw [findMutable_eq_some_iff_located, findMutable_eq_some_iff_located]
    constructor
    · rintro ⟨hindex, hstored, hret, hlt⟩
      exact ⟨(h c ⟨hlt, tx, hstored, hret⟩).mp hindex, hstored, hret, hlt⟩
    · rintro ⟨hindex, hstored, hret, hlt⟩
      exact ⟨(h c ⟨hlt, tx, hstored, hret⟩).mpr hindex, hstored, hret, hlt⟩

/-- Both lookups find the same for every mutant of a block. -/
def FindsAlike (index index' : Uint256 → Option ℕ) (disk : List (CBlock sha256)) (b : ℕ) : Prop :=
  ∀ block, disk[b]? = some block → ∀ txout ∈ mutantOutputs block, ∀ m, mutantOf txout.scriptPubKey = some m →
    findMutable index disk b m = findMutable index' disk b m

variable {mode : Mode} {b : ℕ}

lemma processOutput_congr {st : ScanState sha256} {txout : CTxOut}
    (h : ∀ m, mutantOf txout.scriptPubKey = some m → findMutable index st.disk b m = findMutable index' st.disk b m) :
    processOutput index mode b st txout = processOutput index' mode b st txout := by
  unfold processOutput
  cases hm : mutantOf txout.scriptPubKey with
  | none => rfl
  | some m =>
    dsimp only
    rw [h m hm]

lemma disk_of_processOutput (hmode : mode ≠ .updatehotBlock) {st st' : ScanState sha256} {txout : CTxOut}
    (h : processOutput index mode b st txout = some st') : st'.disk = st.disk := by
  have hself : ∀ {st₀ : ScanState sha256}, some st₀ = some st' → st₀.disk = st.disk → st'.disk = st.disk := by
    rintro _ ⟨⟩ hdisk
    exact hdisk
  unfold processOutput at h
  rw [ite_eq_iff] at h
  obtain ⟨-, ⟨⟩⟩ | ⟨-, h⟩ := h
  cases hm : mutantOf txout.scriptPubKey with
  | none =>
    rw [hm] at h
    exact hself h rfl
  | some m =>
    rw [hm] at h
    dsimp only at h
    cases hfind : findMutable index st.disk b m with
    | none =>
      rw [hfind] at h
      exact hself h rfl
    | some p =>
      rw [hfind] at h
      dsimp only at h
      by_cases hcreate : mode = .createMPTRoot
      · rw [if_pos hcreate] at h
        apply hself h
        unfold createVersion
        dsimp only
        split_ifs <;> rfl
      · rw [if_neg hcreate] at h
        unfold nextVersion at h
        by_cases hseen : m.txSID ∈ st.mutantInBlock
        · rw [if_pos hseen] at h
          exact hself h rfl
        · rw [if_neg hseen] at h
          obtain ⟨newTX, -, h⟩ := bind_eq_some_iff.mp h
          rw [if_neg hmode] at h
          exact hself h rfl

lemma scanBlock_congr (hmode : mode ≠ .updatehotBlock) {block : CBlock sha256} {mpt : Trie}
    (h : ∀ txout ∈ mutantOutputs block, ∀ m, mutantOf txout.scriptPubKey = some m →
      findMutable index disk b m = findMutable index' disk b m) :
    scanBlock index mode b block disk mpt = scanBlock index' mode b block disk mpt := by
  have hfold : ∀ (outputs : List CTxOut) (st : ScanState sha256), st.disk = disk →
      (∀ txout ∈ outputs, ∀ m, mutantOf txout.scriptPubKey = some m →
        findMutable index disk b m = findMutable index' disk b m) →
      outputs.foldlM (processOutput index mode b) st = outputs.foldlM (processOutput index' mode b) st := by
    intro outputs
    induction outputs with
    | nil =>
      intro st _ _
      rfl
    | cons txout outputs ih =>
      intro st hdisk hsame
      rw [forall_mem_cons] at hsame
      rw [foldlM_cons, foldlM_cons, processOutput_congr (by rw [hdisk]; exact hsame.1)]
      cases hstep : processOutput index' mode b st txout with
      | none => rfl
      | some mid => exact ih mid ((disk_of_processOutput hmode hstep).trans hdisk) hsame.2
  unfold scanBlock
  rw [hfold _ _ rfl h]

variable {root : Trie → Str} {st : VersionState sha256}

lemma checkBlockUChain_congr (hmode : mode ≠ .updatehotBlock) {block : CBlock sha256}
    (hblock : disk[b]? = some block) {chainActHeight : ℕ} {mpt : Trie}
    (h : (mode = .createMPTRoot → b + MIN_MUTABLETX_AGE ≤ chainActHeight) → FindsAlike index index' disk b) :
    checkBlockUChain index mode b chainActHeight block disk mpt =
      checkBlockUChain index' mode b chainActHeight block disk mpt := by
  unfold checkBlockUChain
  by_cases hyoung : mode = .createMPTRoot ∧ chainActHeight < b + MIN_MUTABLETX_AGE
  · rw [if_pos hyoung, if_pos hyoung]
  · have hsame : FindsAlike index index' disk b :=
      h fun hcreate => Nat.le_of_not_lt fun hlt => hyoung ⟨hcreate, hlt⟩
    rw [if_neg hyoung, if_neg hyoung, scanBlock_congr hmode (hsame block hblock)]

lemma createTrie_congr {mpt : Trie}
    (h : ∀ b, 1 ≤ b → b + MIN_MUTABLETX_AGE ≤ disk.length - 1 → FindsAlike index index' disk b) :
    createTrie index disk mpt = createTrie index' disk mpt := by
  unfold createTrie
  apply foldlM_congr_of_mem
  intro mpt b hb
  rw [mem_reverse, mem_range'_1] at hb
  cases hblock : disk[b]? with
  | none => rfl
  | some block =>
    dsimp only
    rw [checkBlockUChain_congr (by decide) hblock fun hage => h b hb.1 (hage rfl)]

lemma initMerkelPatriciaTree_congr
    (h : ∀ b, 1 ≤ b → b + MIN_MUTABLETX_AGE ≤ st.height → FindsAlike index index' st.disk b) :
    initMerkelPatriciaTree index st = initMerkelPatriciaTree index' st := by
  unfold initMerkelPatriciaTree
  rw [createTrie_congr h]

lemma applyHotBlock_congr
    (h : MIN_MUTABLETX_AGE < st.height + 1 → FindsAlike index index' st.disk (st.height + 1 - MIN_MUTABLETX_AGE)) :
    applyHotBlock index root st = applyHotBlock index' root st := by
  unfold applyHotBlock
  by_cases hold : MIN_MUTABLETX_AGE < st.height + 1
  · rw [if_pos hold, if_pos hold]
    dsimp only
    cases hblock : st.disk[st.height + 1 - MIN_MUTABLETX_AGE]? with
    | none => rfl
    | some block =>
      dsimp only
      rw [checkBlockUChain_congr (by decide) hblock fun _ => h hold]
  · rw [if_neg hold, if_neg hold]

lemma initMerkelPatriciaTree_frame {st' : VersionState sha256} (h : initMerkelPatriciaTree index st = .ok st') :
    st'.disk = st.disk ∧ st'.nMPTActiveHight = st'.height := by
  obtain ⟨mpt, -, hret⟩ := bind_eq_ok_iff.mp h
  obtain rfl := Except.ok.inj hret
  exact ⟨rfl, rfl⟩

/-- The blocks whose mutants are looked at. -/
def Visited (st : VersionState sha256) (b : ℕ) : Prop :=
  (¬(st.fMPTinit = true ∧ st.nMPTActiveHight = st.height) ∧ 1 ≤ b ∧ b + MIN_MUTABLETX_AGE ≤ st.height) ∨
    (MIN_MUTABLETX_AGE < st.height + 1 ∧ b = st.height + 1 - MIN_MUTABLETX_AGE)

lemma getNextRootMerkelPatriciaTree_congr (h : ∀ b, Visited st b → FindsAlike index index' st.disk b) :
    getNextRootMerkelPatriciaTree index root st = getNextRootMerkelPatriciaTree index' root st := by
  have hhot : ∀ st₁ : VersionState sha256, st₁.disk = st.disk →
      applyHotBlock index root st₁ = applyHotBlock index' root st₁ := by
    intro st₁ hdisk
    apply applyHotBlock_congr
    unfold VersionState.height
    rw [hdisk]
    intro hold
    exact h _ (Or.inr ⟨hold, rfl⟩)
  unfold getNextRootMerkelPatriciaTree
  by_cases hready : st.fMPTinit = true ∧ st.nMPTActiveHight = st.height
  · rw [if_pos hready.1, if_pos hready.1, ok_bind, ok_bind, if_pos hready.2, if_pos hready.2, ok_bind, ok_bind,
      hhot st rfl]
  · have hinit : initMerkelPatriciaTree index st = initMerkelPatriciaTree index' st :=
      initMerkelPatriciaTree_congr fun b h1 hage => h b (Or.inl ⟨hready, h1, hage⟩)
    cases hflag : st.fMPTinit with
    | false =>
      rw [if_neg Bool.false_ne_true, if_neg Bool.false_ne_true, hinit]
      cases hrun : initMerkelPatriciaTree index' st with
      | error e => rfl
      | ok st₁ =>
        obtain ⟨hdisk, hactive⟩ := initMerkelPatriciaTree_frame hrun
        rw [ok_bind, ok_bind, if_pos hactive, if_pos hactive, ok_bind, ok_bind, hhot st₁ hdisk]
    | true =>
      have hne : st.nMPTActiveHight ≠ st.height := fun heq => hready ⟨hflag, heq⟩
      rw [if_pos rfl, if_pos rfl, ok_bind, ok_bind, if_neg hne, if_neg hne, hinit]
      cases hrun : initMerkelPatriciaTree index' st with
      | error e => rfl
      | ok st₁ =>
        obtain ⟨hdisk, -⟩ := initMerkelPatriciaTree_frame hrun
        rw [ok_bind, ok_bind, hhot st₁ hdisk]

end Agree

section Nodes

variable {sha256 : Bytes → Uint256} {A B : LookupState sha256} {hash : Uint256} {c : ℕ}

/-- Where the node with the index looks. -/
def FoundByIndex (A : LookupState sha256) (hash : Uint256) (c : ℕ) : Prop :=
  A.mempool hash = none ∧ (A.txIndex hash = some c ∨
    A.txIndex hash = none ∧ ∃ n coin, FirstUnspent A.pcoinsTip hash n coin ∧ coin.nHeight = c)

/-- Where the node without it looks. -/
def FoundByCoins (B : LookupState sha256) (hash : Uint256) (c : ℕ) : Prop :=
  B.mempool hash = none ∧ ∃ n coin, FirstUnspent B.pcoinsTip hash n coin ∧ coin.nHeight = c

lemma locate_eq_some_iff_of_index (hA : A.fTxIndex = true) : A.locate hash = some c ↔ FoundByIndex A hash c := by
  unfold LookupState.locate LookupState.readTxIndex FoundByIndex
  rw [hA, if_pos rfl]
  cases A.mempool hash with
  | some ptx => simp
  | none =>
    cases A.txIndex hash with
    | some hight => simp
    | none =>
      rw [← coinHight_eq_some_iff]
      simp

lemma locate_eq_some_iff_of_coins (hB : B.fTxIndex = false) : B.locate hash = some c ↔ FoundByCoins B hash c := by
  unfold LookupState.locate LookupState.readTxIndex FoundByCoins
  rw [hB, if_neg Bool.false_ne_true, ← coinHight_eq_some_iff]
  cases B.mempool hash with
  | some ptx => simp
  | none => simp

/-- A node with an index and one without find the same mutable transactions, and compute the same root
for the next block, exactly if every block that holds a mutable transaction of a mutant that is looked
at is found through the index if and only if it is found through the unspent coins. -/
theorem nextRoot_sameLookup_iff (A B : LookupState sha256) (hA : A.fTxIndex = true) (hB : B.fTxIndex = false)
    (root : Trie → Str) (st : VersionState sha256) :
    ((∀ b, Visited st b → FindsAlike A.locate B.locate st.disk b) ∧
        getNextRootMerkelPatriciaTree A.locate root st = getNextRootMerkelPatriciaTree B.locate root st) ↔
      ∀ b block, Visited st b → st.disk[b]? = some block → ∀ txout ∈ mutantOutputs block, ∀ m,
        mutantOf txout.scriptPubKey = some m → ∀ c, Eligible st.disk b m.hashOldTX c →
          (FoundByIndex A m.hashOldTX c ↔ FoundByCoins B m.hashOldTX c) := by
  constructor
  · rintro ⟨hfinds, -⟩ b block hb hblock txout hout m hm c hc
    rw [← locate_eq_some_iff_of_index hA, ← locate_eq_some_iff_of_coins hB]
    exact findMutable_eq_iff.mp (hfinds b hb block hblock txout hout m hm) c hc
  · intro h
    have hfinds : ∀ b, Visited st b → FindsAlike A.locate B.locate st.disk b := by
      intro b hb block hblock txout hout m hm
      rw [findMutable_eq_iff]
      intro c hc
      rw [locate_eq_some_iff_of_index hA, locate_eq_some_iff_of_coins hB]
      exact h b block hb hblock txout hout m hm c hc
    exact ⟨hfinds, getNextRootMerkelPatriciaTree_congr hfinds⟩

end Nodes

section SpentData

def tipState : VersionState cSHA256 :=
  ⟨mutantChain longBlocks, Trie.empty, true, 101, fun _ => [], 0, Trie.empty⟩

def spentNode (fTxIndex : Bool) : LookupState cSHA256 :=
  ⟨fTxIndex, longIndex, fun _ => none, ⟨fun _ => none, fun _ => none⟩⟩

lemma coinHight_spentNode (fTxIndex : Bool) (hash : Uint256) : (spentNode fTxIndex).coinHight hash = none := by
  rw [eq_none_iff_forall_ne_some]
  intro c hc
  obtain ⟨n, coin, hfirst, -⟩ := (coinHight_eq_some_iff _).mp hc
  have hnone := hfirst.coin
  cases hnone

lemma locate_indexedNode : (spentNode true).locate = longIndex := by
  funext hash
  unfold LookupState.locate LookupState.readTxIndex
  rw [coinHight_spentNode]
  show (match longIndex hash with | some hight => some hight | none => none) = _
  cases longIndex hash with
  | none => rfl
  | some hight => rfl

lemma locate_spentNode : (spentNode false).locate = fun _ => none := by
  funext hash
  unfold LookupState.locate LookupState.readTxIndex
  rw [coinHight_spentNode]
  rfl

lemma versionMap_longChain_one (index : Uint256 → Option ℕ) :
    versionMap index (mutantChain longBlocks) (aged (mutantChain longBlocks)) = Trie.empty := by
  rw [aged_longChain, versionMap, versionsAt_one]
  rfl

lemma inStep_tipState (index : Uint256 → Option ℕ) : InStep index (mutantChain longBlocks) tipState := by
  have hnone : Redacted index (mutantChain longBlocks) (aged (mutantChain longBlocks)) = fun _ => False := by
    funext hash
    rw [aged_longChain]
    exact eq_false (redacted_one _ _ hash)
  have hread : ReadableUpTo (mutantChain longBlocks) (aged (mutantChain longBlocks)) := by
    rw [aged_longChain]
    intro c block h1 hc hblock
    exact ((scannable_mutantBlocks longBlocks).mono (by decide) c block h1 hc hblock).readable
  refine inStep_of_aged ⟨?_, ?_, ?_⟩ hread rfl (versionMap_longChain_one index).symm
  · rw [longChain_eq, length_append, length_shortChain]
    decide
  · rw [hnone]
    exact storedVersion_refl _
  · rw [hnone, versionMap_longChain_one]
    refine ⟨False.elim, ?_⟩
    rintro key ⟨⟩

lemma startUp_tipState (index : Uint256 → Option ℕ) : startUp index (mutantChain longBlocks) = .ok tipState := by
  have hin := inStep_tipState index
  have hplain : PlainUpTo index (mutantChain longBlocks) (aged (mutantChain longBlocks)) := by
    rw [aged_longChain]
    intro c block h1 hc hblock txout hout m tx₀ hight hm hfind
    obtain rfl : c = 1 := by omega
    obtain rfl := Option.some.inj hblock
    have hnone : ∀ txout ∈ mutableTx.vout, mutantOf txout.scriptPubKey = none := by decide +kernel
    rw [hnone txout hout] at hm
    cases hm
  have hcreate : createTrie index (mutantChain longBlocks) Trie.empty = .ok Trie.empty :=
    hin.synced.createTrie_of_present hplain hin.readable hin.present
  have hheight : (mutantChain longBlocks).length - 1 = 101 := by
    rw [longChain_eq, length_append, length_shortChain]
    rfl
  unfold startUp initMerkelPatriciaTree
  rw [hcreate, ok_bind]
  unfold VersionState.height tipState
  rw [hheight]
  rfl

lemma versionMap_noIndex {sha256 : Bytes → Uint256} (chain : List (CBlock sha256)) (n : ℕ) :
    versionMap (fun _ => none) chain n = Trie.empty := by
  have heffective : ∀ b seen outputs, effective (fun _ => none) chain b seen outputs = [] := by
    intro b seen outputs
    induction outputs generalizing seen with
    | nil => rfl
    | cons txout outputs ih =>
      rw [effective_of_skips (fun m _ => Or.inl rfl)]
      exact ih seen
  induction n with
  | zero => rfl
  | succ n ih =>
    rw [versionMap, ih]
    unfold versionsAt
    cases chain[n + 1]? with
    | none => rfl
    | some block =>
      dsimp only
      unfold versions
      rw [heffective]
      rfl

lemma scannable_noIndex : ScannableUpTo (fun _ => none) (mutantChain longBlocks)
    ((mutantChain longBlocks).length - MIN_MUTABLETX_AGE) := by
  intro c block h1 hc hblock
  have hnone : ∀ m tx₀ hight, findMutable (fun _ => none) (mutantChain longBlocks) c m ≠ some (tx₀, hight) := by
    rintro m tx₀ hight ⟨⟩
  refine ⟨(scannable_longChain c block h1 hc hblock).readable, ?_, ?_⟩
  · intro txout _ m tx₀ hight _ hfind
    exact absurd hfind (hnone m tx₀ hight)
  · intro txout _ m tx₀ hight _ hfind
    exact absurd hfind (hnone m tx₀ hight)

theorem nextRoot_sameLookup_iff_tipState :
    ((∀ b, Visited tipState b → FindsAlike (spentNode true).locate (spentNode false).locate tipState.disk b) ∧
        getNextRootMerkelPatriciaTree (spentNode true).locate dataRoot tipState =
          getNextRootMerkelPatriciaTree (spentNode false).locate dataRoot tipState) ↔
      ∀ b block, Visited tipState b → tipState.disk[b]? = some block → ∀ txout ∈ mutantOutputs block, ∀ m,
        mutantOf txout.scriptPubKey = some m → ∀ c, Eligible tipState.disk b m.hashOldTX c →
          (FoundByIndex (spentNode true) m.hashOldTX c ↔ FoundByCoins (spentNode false) m.hashOldTX c) :=
  nextRoot_sameLookup_iff (spentNode true) (spentNode false) rfl rfl dataRoot tipState

/-- The data transaction has no output that could be unspent, so that only the node with the index
applies the instruction that names it. -/
theorem nextRoot_differs_tipState :
    startUp (spentNode true).locate (mutantChain longBlocks) = .ok tipState ∧
    startUp (spentNode false).locate (mutantChain longBlocks) = .ok tipState ∧
    ∃ r r' st st', getNextRootMerkelPatriciaTree (spentNode true).locate dataRoot tipState = .ok (r, st) ∧
      getNextRootMerkelPatriciaTree (spentNode false).locate dataRoot tipState = .ok (r', st') ∧ r ≠ r' := by
  have hindex : getNextRootMerkelPatriciaTree longIndex dataRoot tipState = .ok (_, _) :=
    (inStep_tipState longIndex).exists_getNextRootMerkelPatriciaTree scannable_longChain
  have hcoins : getNextRootMerkelPatriciaTree (fun _ => none) dataRoot tipState = .ok (_, _) :=
    (inStep_tipState fun _ => none).exists_getNextRootMerkelPatriciaTree scannable_noIndex
  rw [length_longChain_sub] at hindex hcoins
  rw [locate_indexedNode, locate_spentNode]
  refine ⟨startUp_tipState _, startUp_tipState _, _, _, _, _, hindex, hcoins, ?_⟩
  have hsome : (versionMap longIndex (mutantChain longBlocks) 2 mutableTx.hash.getHex).isSome = true :=
    versionMap_two_isSome longBlocks
  rw [versionMap_noIndex, dataRoot, keyRoot_of_isSome hsome, keyRoot_of_none rfl]
  decide

end SpentData

end MutableBitcoin
