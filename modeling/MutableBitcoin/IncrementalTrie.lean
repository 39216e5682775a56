import MutableBitcoin.VersionRun

/-!
# The trie block by block and from scratch

The chain is extended block by block. The trie has the values that `InitMerkelPatriciaTree` reads
from disk after a restart.
-/

namespace MutableBitcoin
open Lib List

variable {sha256 : Bytes → Uint256}

section Run

variable (index : Uint256 → Option ℕ) (root : Trie → Str)

/-- One more block, with the calls of `getNextRootMerkelPatriciaTree` and `updateHotBlock`. -/
def extendChain (st : VersionState sha256) (block : CBlock sha256) : Except Stop (VersionState sha256) := do
  let (_, st) ← getNextRootMerkelPatriciaTree index root st
  updateHotBlock index root { st with disk := st.disk ++ [block] }

def buildChain (genesis : CBlock sha256) (blocks : List (CBlock sha256)) : Except Stop (VersionState sha256) := do
  let st ← startUp index [genesis]
  blocks.foldlM (extendChain index root) st

variable {index root} {genesis : CBlock sha256} {blocks chain : List (CBlock sha256)}
  {st st' : VersionState sha256}

lemma inStep_startUp_genesis (h : startUp index [genesis] = .ok st) :
    InStep index [genesis] st ∧ st.mpt = versionMap index [genesis] (aged [genesis]) := by
  obtain rfl := Except.ok.inj h
  refine ⟨inStep_of_aged (synced_genesis index genesis) ?_ rfl rfl, rfl⟩
  intro c block h1 hc
  have haged : aged [genesis] = 0 := rfl
  omega

lemma InStep.extendChain (h : InStep index chain st) (block : CBlock sha256)
    (hplain : PlainUpTo index (chain ++ [block]) (aged (chain ++ [block])))
    (hrun : extendChain index root st block = .ok st') :
    InStep index (chain ++ [block]) st' ∧
      st'.mpt = versionMap index (chain ++ [block]) (aged (chain ++ [block])) := by
  obtain ⟨⟨r, mid⟩, hnext, hupdate⟩ := bind_eq_ok_iff.mp hrun
  have hplain₀ : PlainUpTo index chain (chain.length - MIN_MUTABLETX_AGE) := by
    have hpos := h.synced.nonempty
    have : 0 < MIN_MUTABLETX_AGE := by decide
    rw [aged_append] at hplain
    exact plainUpTo_of_append [block] (by omega) hplain
  obtain ⟨-, rfl⟩ := h.getNextRootMerkelPatriciaTree_eq hplain₀ hnext
  obtain ⟨hin, hmpt, -⟩ := h.advance.updateHotBlock_append block hplain hupdate
  exact ⟨hin, hmpt⟩

lemma buildChain_append (block : CBlock sha256) :
    buildChain index root genesis (blocks ++ [block]) =
      buildChain index root genesis blocks >>= fun st => MutableBitcoin.extendChain index root st block := by
  unfold buildChain
  simp only [foldlM_append, foldlM_cons, foldlM_nil, bind_assoc, bind_pure]

lemma inStep_buildChain (hplain : PlainUpTo index (genesis :: blocks) (aged (genesis :: blocks)))
    (hrun : buildChain index root genesis blocks = .ok st) :
    InStep index (genesis :: blocks) st ∧
      st.mpt = versionMap index (genesis :: blocks) (aged (genesis :: blocks)) := by
  induction blocks using List.reverseRecOn generalizing st with
  | nil =>
    obtain ⟨st₀, hstart, heq⟩ := bind_eq_ok_iff.mp (show (startUp index [genesis]).bind
      (fun st => .ok st) = .ok st from hrun)
    obtain rfl := Except.ok.inj heq
    exact inStep_startUp_genesis hstart
  | append_singleton blocks block ih =>
    rw [buildChain_append] at hrun
    obtain ⟨mid, hmid, hstep⟩ := bind_eq_ok_iff.mp hrun
    rw [← cons_append] at hplain ⊢
    have hplain₀ : PlainUpTo index (genesis :: blocks) (aged (genesis :: blocks)) := by
      rw [aged_append] at hplain
      exact plainUpTo_of_append [block] (aged_lt (by simp)) (hplain.mono (le_next _))
    obtain ⟨hin, -⟩ := ih hplain₀ hmid
    exact hin.extendChain block hplain hstep

lemma exists_buildChain (root : Trie → Str)
    (hscan : ScannableUpTo index (genesis :: blocks) (aged (genesis :: blocks))) :
    ∃ st, buildChain index root genesis blocks = .ok st := by
  induction blocks using List.reverseRecOn with
  | nil => exact ⟨_, rfl⟩
  | append_singleton blocks block ih =>
    rw [← cons_append] at hscan
    have hscan₀ : ScannableUpTo index (genesis :: blocks)
        ((genesis :: blocks).length - MIN_MUTABLETX_AGE) := by
      rw [aged_append] at hscan
      exact scannableUpTo_of_append (by simp [MIN_MUTABLETX_AGE]) hscan
    obtain ⟨mid, hmid⟩ := ih (hscan₀.mono (le_next _))
    obtain ⟨hin, -⟩ := inStep_buildChain (hscan₀.mono (le_next _)).plain hmid
    obtain ⟨st, hst⟩ : ∃ st, updateHotBlock index root { mid.advance root (versionMap index
        (genesis :: blocks) ((genesis :: blocks).length - MIN_MUTABLETX_AGE)) with
        disk := mid.disk ++ [block] } = .ok st := exists_updateHotBlock block hin.advance hscan
    refine ⟨st, ?_⟩
    rw [buildChain_append, hmid, ok_bind, MutableBitcoin.extendChain,
      hin.exists_getNextRootMerkelPatriciaTree hscan₀]
    exact hst

lemma Synced.startUp_eq {disk : List (CBlock sha256)} (h : Synced index chain disk)
    (hplain : PlainUpTo index chain (aged chain)) (hread : ReadableUpTo chain (aged chain)) :
    startUp index disk =
      .ok ⟨disk, insertNewAll (storedValue index disk) Trie.empty (rebuildKeys index disk), true,
        disk.length - 1, fun _ => [], 0, Trie.empty⟩ := by
  unfold startUp initMerkelPatriciaTree
  rw [h.createTrie hplain hread]
  rfl

/-- The trie of a restart is the one that was built block by block exactly if every redacted
transaction is named by an instruction that no redaction removed. -/
theorem startUp_agrees_iff (sha256 : Bytes → Uint256) (index : Uint256 → Option ℕ) (root : Trie → Str)
    (genesis : CBlock sha256) (blocks : List (CBlock sha256)) (st : VersionState sha256)
    (hrun : buildChain index root genesis blocks = .ok st)
    (hplain : PlainUpTo index (genesis :: blocks) (aged (genesis :: blocks))) :
    ((startUp index st.disk).map (·.mpt) = .ok st.mpt ∧
        (startUp index st.disk).map (fun st => root st.mpt) = .ok (root st.mpt)) ↔
      ∀ hash, Redacted index (genesis :: blocks) (aged (genesis :: blocks)) hash →
        Recorded index (genesis :: blocks) (aged (genesis :: blocks)) hash := by
  obtain ⟨hin, hmpt⟩ := inStep_buildChain hplain hrun
  rw [← hin.synced.createTrie_empty_iff hplain hin.readable, hin.synced.createTrie hplain hin.readable,
    hin.synced.startUp_eq hplain hin.readable, ← hmpt]
  constructor
  · exact And.left
  · intro heq
    exact ⟨heq, congrArg (Except.map root) heq⟩

end Run

section RedactedMutant

def txIndex (chain : List (CBlock sha256)) (hash : Uint256) : Option ℕ :=
  chain.findIdx? (fun block => block.vtx.any (fun tx => tx.hash = hash))

/-- `6a226444` and the id: the instruction to hide the data of a transaction. -/
def hideScript (hash : Uint256) : CScript := [0x6a, 0x22, 0x64, 0x44] ++ hash.data.reverse

lemma mutantOf_hideScript (hash : Uint256) : mutantOf (hideScript hash) = some ⟨.hide, hash.getHex⟩ := by
  have hhex : hexStr (hideScript hash) = ['6', 'a', '2', '2', '6', '4', '4', '4'] ++ hash.getHex := by
    unfold hideScript BaseBlob.getHex
    rw [hexStr_append]
    rfl
  have hlen : hash.getHex.length = 64 := by
    simp [BaseBlob.getHex, hash.length_data]
  have htake : (['6', 'a', '2', '2', '6', '4', '4', '4'] ++ hash.getHex).take 8 =
      ['6', 'a', '2', '2', '6', '4', '4', '4'] := rfl
  have hdrop : (['6', 'a', '2', '2', '6', '4', '4', '4'] ++ hash.getHex).drop 8 = hash.getHex := rfl
  have hret : isOpReturn (hideScript hash) = true := by simp [isOpReturn, hideScript, Opcode.OP_RETURN]
  unfold mutantOf
  rw [hhex, htake, hdrop, take_of_length_le hlen.le, hret]
  dsimp only
  rw [if_neg (by simp), if_pos ⟨hlen, rfl⟩]

def singleTransaction (prevout : COutPoint) (scriptSig : CScript) (txout : CTxOut) : CMutableTransaction :=
  ⟨BaseBlob.null 128, BaseBlob.null 128, BaseBlob.null 128, BaseBlob.null 128, 1,
    [⟨prevout, scriptSig, SEQUENCE_FINAL, []⟩], [txout], 0⟩

lemma singleTransaction_below (prevout : COutPoint) (scriptSig : CScript) (txout : CTxOut) :
    (singleTransaction prevout scriptSig txout).RandomnessBelow := ⟨null_lt, null_lt, null_lt, null_lt⟩

def minedTransaction (hight : ℕ) : CMutableTransaction :=
  singleTransaction COutPoint.null [1, UInt8.ofNat hight] ⟨5000000000, [0x51]⟩

def scriptTransaction (n : ℕ) (scriptPubKey : CScript) : CMutableTransaction :=
  singleTransaction ⟨BaseBlob.ofNat 32 n, 0⟩ [] ⟨0, scriptPubKey⟩

def minedTx₀ : CTransaction cSHA256 :=
  ⟨minedTransaction 0, BaseBlob.ofNat 32 0x85d74ce31b5b53a5799202068c142035385fd6cd644d1b84927c5d95937ee1a3,
    by decide +kernel⟩

def minedTx₁ : CTransaction cSHA256 :=
  ⟨minedTransaction 1, BaseBlob.ofNat 32 0x317abc44fc65a3808955881898bece8733c0f0e4f368bbe01878b1bcbb4f5862,
    by decide +kernel⟩

def minedTx₂ : CTransaction cSHA256 :=
  ⟨minedTransaction 2, BaseBlob.ofNat 32 0xa4861a7ab0374ae74fcfc4a9088ec1bea11ab19f5be64b3e334c69fd395566ad,
    by decide +kernel⟩

/-- The data `data`. -/
def mutableTx : CTransaction cSHA256 :=
  ⟨scriptTransaction 1 [Opcode.OP_RETURN, 4, 0x64, 0x61, 0x74, 0x61],
    BaseBlob.ofNat 32 0x01512fe2ef710ef47dfc015df10d4425d10e2a0541889ff7d9f9a71d8663d54d, by decide +kernel⟩

/-- Hides the data of `mutableTx`. -/
def mutantTx : CTransaction cSHA256 :=
  ⟨scriptTransaction 2 (hideScript mutableTx.hash),
    BaseBlob.ofNat 32 0xfd3f7d1834b1c02454019049673d49fb254370b48222c05ef9adb0e21b992706, by decide +kernel⟩

/-- Hides the instruction in `mutantTx`. -/
def laterMutantTx : CTransaction cSHA256 :=
  makeTransaction cSHA256 (scriptTransaction 3 (hideScript mutantTx.hash)) (singleTransaction_below _ _ _)

def minedTx (hight : ℕ) : CTransaction cSHA256 :=
  makeTransaction cSHA256 (minedTransaction hight) (singleTransaction_below _ _ _)

def blockOf (vtx : List (CTransaction cSHA256)) : CBlock cSHA256 where
  nVersion := 4
  hashPrevBlock := BaseBlob.null 32
  hashMerkleRoot := BaseBlob.null 32
  nTime := 0
  nBits := 0
  nNonce := 0
  hashUChainVersion := BaseBlob.null 32
  vtx := vtx
  fChecked := false

def genesisBlock : CBlock cSHA256 := blockOf [minedTx₀]

def mutantBlocks (rest : List (CBlock cSHA256)) : List (CBlock cSHA256) :=
  blockOf [minedTx₁, mutableTx] :: blockOf [minedTx₂, mutantTx] :: rest

def mutantChain (rest : List (CBlock cSHA256)) : List (CBlock cSHA256) := genesisBlock :: mutantBlocks rest

def minedBlocks (hight n : ℕ) : List (CBlock cSHA256) :=
  (List.range' hight n).map (fun hight => blockOf [minedTx hight])

def laterBlocks : List (CBlock cSHA256) := blockOf [minedTx 3, laterMutantTx] :: minedBlocks 4 100

variable (rest : List (CBlock cSHA256))

lemma aged_laterBlocks : aged (mutantChain laterBlocks) = 3 := by
  simp [aged, mutantChain, mutantBlocks, laterBlocks, minedBlocks, MIN_MUTABLETX_AGE]

lemma txIndex_mutableTx : txIndex (mutantChain rest) mutableTx.hash = some 1 := by
  have h₀ : (genesisBlock.vtx.any (fun tx => tx.hash = mutableTx.hash)) = false := by decide +kernel
  simp [txIndex, mutantChain, mutantBlocks, findIdx?_cons, h₀, blockOf]

lemma txIndex_mutantTx : txIndex (mutantChain rest) mutantTx.hash = some 2 := by
  have h₀ : (genesisBlock.vtx.any (fun tx => tx.hash = mutantTx.hash)) = false := by decide +kernel
  have h₁ : ((blockOf [minedTx₁, mutableTx]).vtx.any (fun tx => tx.hash = mutantTx.hash)) = false := by
    decide +kernel
  unfold txIndex mutantChain mutantBlocks
  rw [findIdx?_cons, h₀, findIdx?_cons, h₁, findIdx?_cons]
  simp [blockOf]

lemma isPlace_mutableTx :
    IsPlace (txIndex (mutantChain rest)) (blockOf [minedTx₁, mutableTx]) 1 1 mutableTx.hash :=
  ⟨txIndex_mutableTx rest, by decide +kernel⟩

lemma isPlace_mutantTx :
    IsPlace (txIndex (mutantChain rest)) (blockOf [minedTx₂, mutantTx]) 2 1 mutantTx.hash :=
  ⟨txIndex_mutantTx rest, by decide +kernel⟩

lemma getTransaction_mutableTx :
    getTransaction (txIndex (mutantChain rest)) (mutantChain rest) mutableTx.hash = some (mutableTx, 1) :=
  getTransaction_eq_some_iff.mpr ⟨_, 1, rfl, isPlace_mutableTx rest, rfl⟩

lemma getTransaction_mutantTx :
    getTransaction (txIndex (mutantChain rest)) (mutantChain rest) mutantTx.hash = some (mutantTx, 2) :=
  getTransaction_eq_some_iff.mpr ⟨_, 1, rfl, isPlace_mutantTx rest, rfl⟩

lemma plain_mutableTx : Plain mutableTx := ⟨rfl, 0, rfl, by decide, by decide⟩

lemma plain_mutantTx : Plain mutantTx := by
  refine ⟨rfl, 0, rfl, ?_⟩
  have hsize : scriptSizeAt mutantTx.vout 0 = 36 := by
    simp [mutantTx, scriptTransaction, singleTransaction, scriptSizeAt, hideScript,
      mutableTx.hash.length_data]
  rw [hsize]
  decide

lemma findMutable_hide {chain : List (CBlock cSHA256)} {index : Uint256 → Option ℕ} {hash : Uint256}
    {tx : CTransaction cSHA256} {c b : ℕ} (hget : getTransaction index chain hash = some (tx, c))
    (hplain : Plain tx) (hc : c < b) : findMutable index chain b ⟨.hide, hash.getHex⟩ = some (tx, c) := by
  obtain ⟨-, k, hk, -⟩ := hplain
  apply findMutable_eq_some_iff.mpr
  refine ⟨?_, by simp [hk], hc⟩
  rw [Mutant.hashOldTX, uint256S_getHex]
  exact hget

lemma scannable_hide {chain : List (CBlock cSHA256)} {index : Uint256 → Option ℕ} {hash : Uint256}
    {tx : CTransaction cSHA256} {c b : ℕ} (hget : getTransaction index chain hash = some (tx, c))
    (hplain : Plain tx) (hbelow : tx.RandomnessBelow) (hc : c < b) :
    Scannable index chain b [⟨0, hideScript hash⟩] := by
  have htx : ∀ txout ∈ [(⟨0, hideScript hash⟩ : CTxOut)], ∀ m tx₀ hight,
      mutantOf txout.scriptPubKey = some m → findMutable index chain b m = some (tx₀, hight) → tx₀ = tx := by
    intro txout hout m tx₀ hight hm hfind
    obtain rfl := mem_singleton.mp hout
    obtain rfl := Option.some.inj ((mutantOf_hideScript hash).symm.trans hm)
    have heq := Option.some.inj ((findMutable_hide hget hplain hc).symm.trans hfind)
    exact (congrArg Prod.fst heq).symm
  refine ⟨?_, ?_, ?_⟩
  · intro txout hout
    obtain rfl := mem_singleton.mp hout
    have hlen : (hideScript hash).length = 36 := by simp [hideScript, hash.length_data]
    simp [substrThrows, hlen]
  · intro txout hout m tx₀ hight hm hfind
    rw [htx txout hout m tx₀ hight hm hfind]
    exact hplain
  · intro txout hout m tx₀ hight hm hfind
    rw [htx txout hout m tx₀ hight hm hfind]
    exact hbelow

lemma scannable_data {chain : List (CBlock cSHA256)} {index : Uint256 → Option ℕ} {b : ℕ} :
    Scannable index chain b mutableTx.vout := by
  have hnone : ∀ txout ∈ mutableTx.vout, mutantOf txout.scriptPubKey = none := by decide +kernel
  refine ⟨by decide +kernel, ?_, ?_⟩
  · intro txout hout m tx₀ hight hm
    rw [hnone txout hout] at hm
    cases hm
  · intro txout hout m tx₀ hight hm
    rw [hnone txout hout] at hm
    cases hm

lemma scannable_mutantBlocks : ScannableUpTo (txIndex (mutantChain rest)) (mutantChain rest) 2 := by
  intro c block h1 hc hblock
  interval_cases c
  · obtain rfl := Option.some.inj hblock
    exact scannable_data
  · obtain rfl := Option.some.inj hblock
    exact scannable_hide (getTransaction_mutableTx _) plain_mutableTx (singleTransaction_below _ _ _)
      (by decide)

lemma scannable_laterBlocks : ScannableUpTo (txIndex (mutantChain laterBlocks)) (mutantChain laterBlocks)
    (aged (mutantChain laterBlocks)) := by
  rw [aged_laterBlocks]
  intro c block h1 hc hblock
  rcases Nat.lt_or_eq_of_le hc with hc | rfl
  · exact scannable_mutantBlocks _ c block h1 (Nat.lt_succ_iff.mp hc) hblock
  · obtain rfl := Option.some.inj hblock
    exact scannable_hide (getTransaction_mutantTx _) plain_mutantTx (singleTransaction_below _ _ _)
      (by decide)

lemma targets_hide {chain : List (CBlock cSHA256)} {index : Uint256 → Option ℕ} {hash : Uint256}
    {tx : CTransaction cSHA256} {c b : ℕ} (hget : getTransaction index chain hash = some (tx, c))
    (hplain : Plain tx) (hc : c < b) : Targets index chain b [⟨0, hideScript hash⟩] hash := by
  refine ⟨_, mem_singleton_self _, _, mutantOf_hideScript hash, ?_, uint256S_getHex hash⟩
  rw [findMutable_hide hget hplain hc]
  rfl

lemma redacted_mutableTx : Redacted (txIndex (mutantChain laterBlocks)) (mutantChain laterBlocks) 3 mutableTx.hash :=
  ⟨2, _, by decide, by decide, rfl, targets_hide (getTransaction_mutableTx _) plain_mutableTx (by decide)⟩

lemma redacted_mutantTx : Redacted (txIndex (mutantChain laterBlocks)) (mutantChain laterBlocks) 3 mutantTx.hash :=
  ⟨3, _, by decide, by decide, rfl, targets_hide (getTransaction_mutantTx _) plain_mutantTx (by decide)⟩

lemma not_recorded_mutableTx : ¬Recorded (txIndex (mutantChain laterBlocks)) (mutantChain laterBlocks) 3 mutableTx.hash := by
  rintro ⟨c, block, h1, hc, hblock, i, tx, j, txout, m, htx, hcb, hj, hnot, hm, -, hhash⟩
  have hout := mem_mutantOutputs.mpr ⟨i, tx, j, htx, hcb, hj⟩
  interval_cases c
  · obtain rfl := Option.some.inj hblock
    have hnone : ∀ txout ∈ mutableTx.vout, mutantOf txout.scriptPubKey = none := by decide +kernel
    rw [hnone txout hout] at hm
    cases hm
  · obtain rfl := Option.some.inj hblock
    match i, htx with
    | 0, htx =>
      obtain rfl := Option.some.inj htx
      exact absurd hcb (by decide +kernel)
    | 1, htx =>
      obtain rfl := Option.some.inj htx
      match j, hj with
      | 0, hj => exact hnot ⟨⟨redacted_mutantTx, isPlace_mutantTx _⟩, rfl⟩
  · obtain rfl := Option.some.inj hblock
    obtain rfl : txout = ⟨0, hideScript mutantTx.hash⟩ := mem_singleton.mp hout
    obtain rfl := Option.some.inj ((mutantOf_hideScript mutantTx.hash).symm.trans hm)
    have hne : mutantTx.hash ≠ mutableTx.hash := by decide +kernel
    exact hne ((uint256S_getHex mutantTx.hash).symm.trans hhash)

def keyRoot (key : Str) (mpt : Trie) : Str := List.replicate 64 (if mpt.contains key then '1' else '0')

lemma keyRoot_of_none {key : Str} {mpt : Trie} (h : mpt key = none) :
    keyRoot key mpt = List.replicate 64 '0' := by
  simp [keyRoot, Trie.contains, h]

lemma keyRoot_of_isSome {key : Str} {mpt : Trie} (h : (mpt key).isSome = true) :
    keyRoot key mpt = List.replicate 64 '1' := by
  simp [keyRoot, Trie.contains, h]

theorem startUp_agrees_iff_laterBlocks :
    ∃ st, buildChain (txIndex (mutantChain laterBlocks)) (keyRoot mutableTx.hash.getHex) genesisBlock (mutantBlocks laterBlocks) =
        .ok st ∧
      (((startUp (txIndex (mutantChain laterBlocks)) st.disk).map (·.mpt) = .ok st.mpt ∧
        (startUp (txIndex (mutantChain laterBlocks)) st.disk).map (fun st => keyRoot mutableTx.hash.getHex st.mpt) =
          .ok (keyRoot mutableTx.hash.getHex st.mpt)) ↔
      ∀ hash, Redacted (txIndex (mutantChain laterBlocks)) (mutantChain laterBlocks) (aged (mutantChain laterBlocks)) hash →
        Recorded (txIndex (mutantChain laterBlocks)) (mutantChain laterBlocks) (aged (mutantChain laterBlocks)) hash) := by
  obtain ⟨st, hrun⟩ := exists_buildChain (keyRoot mutableTx.hash.getHex) scannable_laterBlocks
  exact ⟨st, hrun, startUp_agrees_iff cSHA256 _ _ genesisBlock (mutantBlocks laterBlocks) st hrun
    scannable_laterBlocks.plain⟩

/-- After a restart the trie has lost `mutableTx`, and its root differs. -/
theorem startUp_laterBlocks_forgets :
    ∃ st st', buildChain (txIndex (mutantChain laterBlocks)) (keyRoot mutableTx.hash.getHex) genesisBlock (mutantBlocks laterBlocks) =
        .ok st ∧
      startUp (txIndex (mutantChain laterBlocks)) st.disk = .ok st' ∧ st'.mpt ≠ st.mpt ∧
      keyRoot mutableTx.hash.getHex st'.mpt ≠ keyRoot mutableTx.hash.getHex st.mpt := by
  obtain ⟨st, hrun⟩ := exists_buildChain (keyRoot mutableTx.hash.getHex) scannable_laterBlocks
  obtain ⟨hin, -⟩ := inStep_buildChain scannable_laterBlocks.plain hrun
  have hred : Redacted (txIndex (mutantChain laterBlocks)) (mutantChain laterBlocks) (aged (mutantChain laterBlocks)) mutableTx.hash := by
    rw [aged_laterBlocks]
    exact redacted_mutableTx
  have hsome := hin.present _ hred
  have hnone : insertNewAll (storedValue (txIndex (mutantChain laterBlocks)) st.disk) Trie.empty
      (rebuildKeys (txIndex (mutantChain laterBlocks)) st.disk) mutableTx.hash.getHex = none := by
    rw [insertNewAll_apply, if_neg]
    · rfl
    · rintro ⟨hkey, -⟩
      obtain ⟨hash, hrecorded, heq⟩ := hin.synced.mem_rebuildKeys.mp hkey
      rw [← BaseBlob.getHex_injective heq] at hrecorded
      apply not_recorded_mutableTx
      rw [← aged_laterBlocks]
      exact hrecorded
  refine ⟨st, _, hrun, hin.synced.startUp_eq scannable_laterBlocks.plain hin.readable, ?_, ?_⟩
  · intro heq
    rw [← heq] at hsome
    dsimp only at hsome
    rw [hnone] at hsome
    cases hsome
  · rw [keyRoot_of_none hnone, keyRoot_of_isSome hsome]
    decide

end RedactedMutant

end MutableBitcoin
