import MutableBitcoin.VersionScan

/-!
# The versions of a chain

The map that a chain determines: the instructions of its blocks, as they were received, applied in
order to the empty trie.
-/

namespace MutableBitcoin
open Lib List

variable {sha256 : Bytes → Uint256}

section Chain

variable (index : Uint256 → Option ℕ) (chain : List (CBlock sha256))

def versionsAt (b : ℕ) : List (Str × Str) :=
  match chain[b]? with
  | none => []
  | some block => versions index chain b [] (mutantOutputs block)

/-- The instructions of the blocks 1 to `n`, applied in order to the empty trie. -/
def versionMap : ℕ → Trie
  | 0 => Trie.empty
  | n + 1 => insertAll (versionMap n) (versionsAt index chain (n + 1))

/-- The ids of the transactions that the blocks 1 to `n` redact. -/
def Redacted (n : ℕ) (hash : Uint256) : Prop :=
  ∃ c block, 1 ≤ c ∧ c ≤ n ∧ chain[c]? = some block ∧ Targets index chain c (mutantOutputs block) hash

/-- The transactions that the blocks 1 to `n` redact are plain. -/
def PlainUpTo (n : ℕ) : Prop :=
  ∀ c block, 1 ≤ c → c ≤ n → chain[c]? = some block → PlainTargets index chain c (mutantOutputs block)

def aged : ℕ := chain.length - 1 - MIN_MUTABLETX_AGE

end Chain

section Append

variable {index : Uint256 → Option ℕ} {chain rest : List (CBlock sha256)} {b n : ℕ}

lemma getTransaction_append_of_some {hash : Uint256} {p : CTransaction sha256 × ℕ}
    (h : getTransaction index chain hash = some p) :
    getTransaction index (chain ++ rest) hash = some p := by
  obtain ⟨tx, c⟩ := p
  obtain ⟨B, i, hB, hplace, htx⟩ := getTransaction_eq_some_iff.mp h
  have hlt := (List.getElem?_eq_some_iff.mp hB).1
  exact getTransaction_eq_some_iff.mpr
    ⟨B, i, by rw [getElem?_append_left hlt, hB], hplace, htx⟩

lemma findMutable_append (hb : b ≤ chain.length) (m : Mutant) :
    findMutable index (chain ++ rest) b m = findMutable index chain b m := by
  ext ⟨tx, c⟩
  rw [findMutable_eq_some_iff, findMutable_eq_some_iff]
  constructor
  · rintro ⟨hget, hret, hlt⟩
    obtain ⟨B, i, hB, hplace, htx⟩ := getTransaction_eq_some_iff.mp hget
    rw [getElem?_append_left (hlt.trans_le hb)] at hB
    exact ⟨getTransaction_eq_some_iff.mpr ⟨B, i, hB, hplace, htx⟩, hret, hlt⟩
  · rintro ⟨hget, hret, hlt⟩
    exact ⟨getTransaction_append_of_some hget, hret, hlt⟩

lemma targets_append (hb : b ≤ chain.length) (outputs : List CTxOut) (hash : Uint256) :
    Targets index (chain ++ rest) b outputs hash ↔ Targets index chain b outputs hash := by
  unfold Targets
  simp only [findMutable_append hb]

lemma plainTargets_append (hb : b ≤ chain.length) (outputs : List CTxOut) :
    PlainTargets index (chain ++ rest) b outputs ↔ PlainTargets index chain b outputs := by
  unfold PlainTargets
  simp only [findMutable_append hb]

lemma effective_append (hb : b ≤ chain.length) (seen : List Str) (outputs : List CTxOut) :
    effective index (chain ++ rest) b seen outputs = effective index chain b seen outputs := by
  induction outputs generalizing seen with
  | nil => rfl
  | cons txout outputs ih =>
    rw [effective, effective]
    cases mutantOf txout.scriptPubKey with
    | none => exact ih seen
    | some m =>
      dsimp only
      rw [findMutable_append hb, ih seen, ih (m.txSID :: seen)]

lemma findMutable_of_mem_effective {seen : List Str} {outputs : List CTxOut} {m : Mutant}
    (h : m ∈ effective index chain b seen outputs) : (findMutable index chain b m).isSome = true := by
  induction outputs generalizing seen with
  | nil => simp [effective] at h
  | cons txout outputs ih =>
    rw [effective] at h
    cases hm : mutantOf txout.scriptPubKey with
    | none =>
      rw [hm] at h
      exact ih h
    | some m' =>
      rw [hm] at h
      dsimp only at h
      split_ifs at h with hskip
      · exact ih h
      · rcases mem_cons.mp h with rfl | h
        · rw [not_or] at hskip
          simpa [Option.isSome_iff_ne_none] using hskip.1
        · exact ih h

lemma versions_append (hb : b ≤ chain.length) (outputs : List CTxOut) :
    versions index (chain ++ rest) b [] outputs = versions index chain b [] outputs := by
  unfold versions
  rw [effective_append hb]
  apply filterMap_congr
  intro m hm
  obtain ⟨⟨tx, c⟩, hfind⟩ := Option.isSome_iff_exists.mp (findMutable_of_mem_effective hm)
  have hget := (findMutable_eq_some_iff.mp hfind).1
  unfold versionOf
  rw [hget, getTransaction_append_of_some hget]

variable (rest)

lemma versionsAt_append (hb : b < chain.length) :
    versionsAt index (chain ++ rest) b = versionsAt index chain b := by
  unfold versionsAt
  rw [getElem?_append_left hb]
  cases chain[b]? with
  | none => rfl
  | some block => exact versions_append hb.le _

lemma versionMap_append (hn : n < chain.length) :
    versionMap index (chain ++ rest) n = versionMap index chain n := by
  induction n with
  | zero => rfl
  | succ n ih => rw [versionMap, versionMap, ih (by omega), versionsAt_append rest hn]

lemma redacted_append (hn : n < chain.length) :
    Redacted index (chain ++ rest) n = Redacted index chain n := by
  funext hash
  apply propext
  unfold Redacted
  constructor
  · rintro ⟨c, block, h1, hc, hblock, htarget⟩
    have hlt : c < chain.length := by omega
    rw [getElem?_append_left hlt] at hblock
    exact ⟨c, block, h1, hc, hblock, (targets_append hlt.le _ _).mp htarget⟩
  · rintro ⟨c, block, h1, hc, hblock, htarget⟩
    have hlt : c < chain.length := by omega
    exact ⟨c, block, h1, hc, by rw [getElem?_append_left hlt, hblock],
      (targets_append hlt.le _ _).mpr htarget⟩

lemma plainUpTo_of_append (hn : n < chain.length) (h : PlainUpTo index (chain ++ rest) n) :
    PlainUpTo index chain n := by
  intro c block h1 hc hblock
  have hlt : c < chain.length := by omega
  exact (plainTargets_append hlt.le _).mp
    (h c block h1 hc (by rw [getElem?_append_left hlt, hblock]))

end Append

section Redacted

variable {index : Uint256 → Option ℕ} {chain : List (CBlock sha256)} {n : ℕ} {hash : Uint256}

@[simp] lemma redacted_zero : Redacted index chain 0 = fun _ => False := by
  funext x
  apply propext
  constructor
  · rintro ⟨c, block, h1, hc, -⟩
    omega
  · exact False.elim

lemma redacted_succ {block : CBlock sha256} (hblock : chain[n + 1]? = some block) :
    Redacted index chain (n + 1) =
      fun x => Redacted index chain n x ∨ Targets index chain (n + 1) (mutantOutputs block) x := by
  funext x
  apply propext
  constructor
  · rintro ⟨c, block', h1, hc, hblock', htarget⟩
    rcases Nat.lt_or_eq_of_le hc with hlt | rfl
    · exact Or.inl ⟨c, block', h1, by omega, hblock', htarget⟩
    · obtain rfl := Option.some.inj (hblock.symm.trans hblock')
      exact Or.inr htarget
  · rintro (⟨c, block', h1, hc, hrest⟩ | htarget)
    · exact ⟨c, block', h1, by omega, hrest⟩
    · exact ⟨n + 1, block, by omega, le_rfl, hblock, htarget⟩

lemma Redacted.index_lt (h : Redacted index chain n hash) :
    ∃ c, index hash = some c ∧ c < n := by
  obtain ⟨c, block, -, hc, -, txout, -, m, -, hfind, rfl⟩ := h
  obtain ⟨⟨tx, d⟩, hfind⟩ := Option.isSome_iff_exists.mp hfind
  obtain ⟨hget, -, hlt⟩ := findMutable_eq_some_iff.mp hfind
  obtain ⟨B, i, -, hplace, -⟩ := getTransaction_eq_some_iff.mp hget
  exact ⟨d, hplace.1, hlt.trans_le hc⟩

lemma versionsAt_eq {b : ℕ} {block : CBlock sha256} (hblock : chain[b]? = some block) :
    versionsAt index chain b = versions index chain b [] (mutantOutputs block) := by
  unfold versionsAt
  rw [hblock]

end Redacted

section Stored

variable {index : Uint256 → Option ℕ} {A : Uint256 → Prop} {chain disk : List (CBlock sha256)}
  {mpt : Trie} (block : CBlock sha256)

lemma StoredVersion.vtx_eq {b : ℕ} {B₀ B : CBlock sha256} (h : StoredVersion index A chain disk)
    (hB₀ : chain[b]? = some B₀) (hB : disk[b]? = some B) (hfar : ∀ hash, A hash → index hash ≠ some b) :
    B.vtx = B₀.vtx := by
  have hlen := congrArg List.length (h.ids hB₀ hB)
  simp only [length_map] at hlen
  apply ext_getElem hlen
  intro i hi hi₀
  exact h.received hB₀ hB (getElem?_eq_getElem hi₀) (getElem?_eq_getElem hi)
    (fun hA => hfar _ hA.1 hA.2.1)

lemma StoredVersion.append (h : StoredVersion index A chain disk)
    (hfar : ∀ hash, A hash → index hash ≠ some chain.length) :
    StoredVersion index A (chain ++ [block]) (disk ++ [block]) := by
  -- the new block is the only one that is not covered by `h`
  have hget : ∀ {c : ℕ} {C₀ C : CBlock sha256}, (chain ++ [block])[c]? = some C₀ →
      (disk ++ [block])[c]? = some C →
      (chain[c]? = some C₀ ∧ disk[c]? = some C) ∨ (c = chain.length ∧ C = C₀) := by
    intro c C₀ C hC₀ hC
    by_cases hc : c < chain.length
    · rw [getElem?_append_left hc] at hC₀
      rw [getElem?_append_left (h.length ▸ hc)] at hC
      exact Or.inl ⟨hC₀, hC⟩
    · have hle : c < (chain ++ [block]).length := (List.getElem?_eq_some_iff.mp hC₀).1
      rw [length_append, length_singleton] at hle
      obtain rfl : c = chain.length := by omega
      rw [getElem?_concat_length] at hC₀
      rw [← h.length, getElem?_concat_length] at hC
      exact Or.inr ⟨rfl, Option.some.inj (hC.symm.trans hC₀)⟩
  constructor
  · simp [h.length]
  · intro c C₀ C hC₀ hC
    rcases hget hC₀ hC with ⟨hC₀, hC⟩ | ⟨-, rfl⟩
    · exact h.ids hC₀ hC
    · rfl
  · intro c i C₀ C tx₀ tx hC₀ hC htx₀ htx hA hplace
    rcases hget hC₀ hC with ⟨hC₀, hC⟩ | ⟨rfl, -⟩
    · exact h.redacted hC₀ hC htx₀ htx hA hplace
    · exact absurd hplace.1 (hfar _ hA)
  · intro c i C₀ C tx₀ tx hC₀ hC htx₀ htx hnot
    rcases hget hC₀ hC with ⟨hC₀, hC⟩ | ⟨-, rfl⟩
    · exact h.received hC₀ hC htx₀ htx hnot
    · exact Option.some.inj (htx.symm.trans htx₀)

lemma Agrees.append (h : Agrees index A disk mpt) : Agrees index A (disk ++ [block]) mpt where
  value hA := by
    obtain ⟨tx, c, hget, hval⟩ := h.value hA
    exact ⟨tx, c, getTransaction_append_of_some hget, hval⟩
  key := h.key

end Stored

section Synced

variable {index : Uint256 → Option ℕ} {chain disk : List (CBlock sha256)}

/-- The blocks on disk hold the redactions of all blocks that are old enough. -/
structure Synced (index : Uint256 → Option ℕ) (chain disk : List (CBlock sha256)) : Prop where
  nonempty : 0 < chain.length
  stored : StoredVersion index (Redacted index chain (aged chain)) chain disk
  agrees : Agrees index (Redacted index chain (aged chain)) disk (versionMap index chain (aged chain))

lemma synced_genesis (index : Uint256 → Option ℕ) (genesis : CBlock sha256) :
    Synced index [genesis] [genesis] where
  nonempty := Nat.zero_lt_one
  stored := by
    rw [show aged [genesis] = 0 from rfl, redacted_zero]
    exact storedVersion_refl _
  agrees := by
    rw [show aged [genesis] = 0 from rfl, redacted_zero]
    exact ⟨False.elim, fun h => by simp [versionMap, Trie.empty] at h⟩

lemma Synced.mutantOutputs_eq (h : Synced index chain disk) {b : ℕ} {B₀ B : CBlock sha256}
    (hb : aged chain ≤ b) (hB₀ : chain[b]? = some B₀) (hB : disk[b]? = some B) :
    mutantOutputs B = mutantOutputs B₀ := by
  have hvtx : B.vtx = B₀.vtx := by
    apply h.stored.vtx_eq hB₀ hB
    intro hash hA hindex
    obtain ⟨c, hc, hlt⟩ := Redacted.index_lt hA
    obtain rfl := Option.some.inj (hc.symm.trans hindex)
    omega
  unfold mutantOutputs
  rw [hvtx]

lemma Synced.exists_block (h : Synced index chain disk) {b : ℕ} (hb : aged chain ≤ b)
    (hlt : b < chain.length) :
    ∃ B₀ B, chain[b]? = some B₀ ∧ disk[b]? = some B ∧ mutantOutputs B = mutantOutputs B₀ := by
  have hB₀ : chain[b]? = some chain[b] := getElem?_eq_getElem hlt
  obtain ⟨B, hB, -⟩ := h.stored.exists_block hB₀
  exact ⟨_, B, hB₀, hB, h.mutantOutputs_eq hb hB₀ hB⟩

lemma Synced.append (h : Synced index chain disk) (block : CBlock sha256) :
    StoredVersion index (Redacted index (chain ++ [block]) (aged chain)) (chain ++ [block])
        (disk ++ [block]) ∧
      Agrees index (Redacted index (chain ++ [block]) (aged chain)) (disk ++ [block])
        (versionMap index (chain ++ [block]) (aged chain)) := by
  have hlt : aged chain < chain.length := by
    have := h.nonempty
    unfold aged
    omega
  rw [redacted_append [block] hlt, versionMap_append [block] hlt]
  refine ⟨h.stored.append block ?_, h.agrees.append block⟩
  intro hash hred hindex
  obtain ⟨c, hc, hc'⟩ := hred.index_lt
  obtain rfl := Option.some.inj (hc.symm.trans hindex)
  omega

end Synced

end MutableBitcoin

/-!
## The trie built from what is stored

`InitMerkelPatriciaTree` reads the stored blocks from the tip down and keeps the first value of
every id.
-/

namespace MutableBitcoin
open Lib List

variable {sha256 : Bytes → Uint256}

section Filler

lemma hexStr_of_mutantOf {script : CScript} {m : Mutant} (h : mutantOf script = some m) :
    (hexStr script)[2]? = some '2' ∧ (hexStr script)[4]? = some '6' := by
  have htake : ∀ {l : Str}, (hexStr script).take 8 = l → ∀ i < 8, (hexStr script)[i]? = l[i]? := by
    rintro l rfl i hi
    exact (getElem?_take_of_lt hi).symm
  unfold mutantOf at h
  dsimp only at h
  split_ifs at h with h₁ h₂ h₃
  · exact ⟨htake h₂.2 2 (by norm_num), htake h₂.2 4 (by norm_num)⟩
  · exact ⟨htake h₃.2 2 (by norm_num), htake h₃.2 4 (by norm_num)⟩

lemma mutantOf_redactedScript (op : RedactOp) (szO : ℕ) : mutantOf (redactedScript op szO) = none := by
  rw [Option.eq_none_iff_forall_ne_some]
  intro m hm
  obtain ⟨h₂, h₄⟩ := hexStr_of_mutantOf hm
  rw [redactedScript_eq] at h₂ h₄
  unfold CScript.pushData at h₂ h₄
  generalize szO - 2 = n at h₂ h₄
  simp only [length_replicate] at h₂ h₄
  split_ifs at h₂ h₄
  · cases n with
    | zero => simp [hexStr] at h₄
    | succ n => cases op <;> simp [replicate_succ, hexStr, RedactOp.fillerByte] at h₄
  · simp [hexStr, Opcode.OP_PUSHDATA1] at h₂
  · simp [hexStr, Opcode.OP_PUSHDATA2] at h₂
  · simp [hexStr, Opcode.OP_PUSHDATA4] at h₂

lemma substrThrows_congr {script script' : CScript} (hret : isOpReturn script = isOpReturn script')
    (hlen : script.length = script'.length) : substrThrows script = substrThrows script' := by
  unfold substrThrows
  rw [hret, length_hexStr, length_hexStr, hlen]

end Filler

section Create

variable (index : Uint256 → Option ℕ) (disk : List (CBlock sha256))

def storedValue (key : Str) : Str :=
  match getTransaction index disk (uint256S key) with
  | some (tx, _) => valueMPT sha256 tx.toCMutableTransaction
  | none => []

def createKeys (b : ℕ) (outputs : List CTxOut) : List Str :=
  ((outputs.filterMap (fun txout => mutantOf txout.scriptPubKey)).filter
    (fun m => (findMutable index disk b m).isSome)).map (fun m => m.hashOldTX.getHex)

/-- The keys that a rebuild records. -/
def rebuildKeys : List Str :=
  (List.range' 1 (disk.length - 1)).reverse.flatMap (fun hight =>
    match disk[hight]? with
    | none => []
    | some block =>
      if disk.length - 1 < hight + MIN_MUTABLETX_AGE then []
      else createKeys index disk hight (mutantOutputs block))

variable {index disk} {b : ℕ} {outputs : List CTxOut}

lemma uint256S_getHex (hash : Uint256) : uint256S hash.getHex = hash := BaseBlob.setHex_getHex hash

lemma storedValue_eq {hash : Uint256} {tx : CTransaction sha256} {c : ℕ}
    (h : getTransaction index disk hash = some (tx, c)) :
    storedValue index disk hash.getHex = valueMPT sha256 tx.toCMutableTransaction := by
  unfold storedValue
  rw [uint256S_getHex, h]

lemma mem_createKeys {key : Str} :
    key ∈ createKeys index disk b outputs ↔
      ∃ hash, Targets index disk b outputs hash ∧ key = hash.getHex := by
  simp only [createKeys, mem_map, mem_filter, mem_filterMap, Targets]
  constructor
  · rintro ⟨m, ⟨⟨txout, hmem, hm⟩, hfind⟩, rfl⟩
    exact ⟨m.hashOldTX, ⟨txout, hmem, m, hm, hfind, rfl⟩, rfl⟩
  · rintro ⟨hash, ⟨txout, hmem, m, hm, hfind, rfl⟩, rfl⟩
    exact ⟨m, ⟨⟨txout, hmem, hm⟩, hfind⟩, rfl⟩

lemma createVersion_eq {m : Mutant} {oldTX : CTransaction sha256} {c : ℕ}
    (hget : getTransaction index disk m.hashOldTX = some (oldTX, c)) (mpt : Trie) (seen : List Str) :
    createVersion ⟨disk, mpt, seen⟩ oldTX = ⟨disk, insertNew mpt m.hashOldTX.getHex
      (storedValue index disk m.hashOldTX.getHex), seen⟩ := by
  obtain ⟨B, i, hB, hplace, htx⟩ := getTransaction_eq_some_iff.mp hget
  rw [storedValue_eq hget]
  unfold createVersion insertNew Trie.contains Trie.insert
  rw [hash_of_isPlace hplace htx]
  dsimp only
  split_ifs <;> rfl

lemma processOutput_createMPTRoot {txout : CTxOut} (hread : substrThrows txout.scriptPubKey = false)
    (mpt : Trie) (seen : List Str) :
    processOutput index .createMPTRoot b ⟨disk, mpt, seen⟩ txout =
      some ⟨disk, insertNewAll (storedValue index disk) mpt (createKeys index disk b [txout]), seen⟩ := by
  unfold processOutput createKeys
  rw [if_neg (by simp [hread])]
  cases hm : mutantOf txout.scriptPubKey with
  | none => simp [hm, insertNewAll]
  | some m =>
    dsimp only
    cases hfind : findMutable index disk b m with
    | none => simp [hm, hfind, insertNewAll]
    | some p =>
      obtain ⟨oldTX, c⟩ := p
      dsimp only
      rw [if_pos rfl, createVersion_eq (findMutable_eq_some_iff.mp hfind).1]
      simp [hm, hfind, insertNewAll]

lemma scan_createMPTRoot (hread : ∀ txout ∈ outputs, substrThrows txout.scriptPubKey = false)
    (mpt : Trie) (seen : List Str) :
    outputs.foldlM (processOutput index .createMPTRoot b) ⟨disk, mpt, seen⟩ =
      some ⟨disk, insertNewAll (storedValue index disk) mpt (createKeys index disk b outputs), seen⟩ := by
  induction outputs generalizing mpt with
  | nil => rfl
  | cons txout outputs ih =>
    rw [forall_mem_cons] at hread
    have hkeys : createKeys index disk b (txout :: outputs) =
        createKeys index disk b [txout] ++ createKeys index disk b outputs := by
      unfold createKeys
      rw [← map_append, ← filter_append, ← filterMap_append, singleton_append]
    rw [foldlM_cons, processOutput_createMPTRoot hread.1, hkeys, insertNewAll_append]
    exact ih hread.2 _

/-- No output of these blocks makes the scan throw. -/
def ReadableUpTo (chain : List (CBlock sha256)) (n : ℕ) : Prop :=
  ∀ c block, 1 ≤ c → c ≤ n → chain[c]? = some block →
    ∀ txout ∈ mutantOutputs block, substrThrows txout.scriptPubKey = false

lemma createTrie_eq (hread : ReadableUpTo disk (aged disk)) (mpt : Trie) :
    createTrie index disk mpt =
      .ok (insertNewAll (storedValue index disk) mpt (rebuildKeys index disk)) := by
  unfold createTrie
  apply foldlM_insertNewAll
  intro hight hmem mpt
  rw [mem_reverse, mem_range'_1] at hmem
  have hlt : hight < disk.length := by omega
  rw [getElem?_eq_getElem hlt]
  dsimp only
  unfold checkBlockUChain
  by_cases hyoung : disk.length - 1 < hight + MIN_MUTABLETX_AGE
  · rw [if_pos ⟨rfl, hyoung⟩, if_pos hyoung]
    rfl
  · have hage : hight ≤ aged disk := by
      unfold aged
      omega
    rw [if_neg (by simp [hyoung]), if_neg (by simp), if_neg (by simp), if_neg hyoung]
    unfold scanBlock
    rw [scan_createMPTRoot (hread hight _ hmem.1 hage (getElem?_eq_getElem hlt))]
    rfl

lemma mem_rebuildKeys {key : Str} :
    key ∈ rebuildKeys index disk ↔ ∃ c block hash, 1 ≤ c ∧ c ≤ aged disk ∧ disk[c]? = some block ∧
      Targets index disk c (mutantOutputs block) hash ∧ key = hash.getHex := by
  unfold rebuildKeys
  rw [mem_flatMap]
  constructor
  · rintro ⟨c, hc, hkey⟩
    rw [mem_reverse, mem_range'_1] at hc
    cases hblock : disk[c]? with
    | none => simp [hblock] at hkey
    | some block =>
      rw [hblock] at hkey
      dsimp only at hkey
      split_ifs at hkey with hyoung
      · simp at hkey
      · obtain ⟨hash, htarget, rfl⟩ := mem_createKeys.mp hkey
        exact ⟨c, block, hash, hc.1, by unfold aged; omega, hblock, htarget, rfl⟩
  · rintro ⟨c, block, hash, h1, hc, hblock, htarget, rfl⟩
    have hlt := (List.getElem?_eq_some_iff.mp hblock).1
    unfold aged at hc
    refine ⟨c, ?_, ?_⟩
    · rw [mem_reverse, mem_range'_1]
      omega
    · rw [hblock]
      dsimp only
      rw [if_neg (by omega)]
      exact mem_createKeys.mpr ⟨hash, htarget, rfl⟩

end Create

section Survivors

variable {index : Uint256 → Option ℕ} {A : Uint256 → Prop} {chain disk : List (CBlock sha256)}

lemma mem_mutantOutputs {block : CBlock sha256} {txout : CTxOut} :
    txout ∈ mutantOutputs block ↔ ∃ (i : ℕ) (tx : CTransaction sha256) (j : ℕ),
      block.vtx[i]? = some tx ∧ tx.isCoinBase = false ∧ tx.vout[j]? = some txout := by
  unfold mutantOutputs
  simp only [mem_flatMap, mem_filter, Bool.not_eq_eq_eq_not, Bool.not_true]
  constructor
  · rintro ⟨tx, ⟨htx, hcb⟩, hout⟩
    obtain ⟨i, hi⟩ := mem_iff_getElem?.mp htx
    obtain ⟨j, hj⟩ := mem_iff_getElem?.mp hout
    exact ⟨i, tx, j, hi, hcb, hj⟩
  · rintro ⟨i, tx, j, hi, hcb, hj⟩
    exact ⟨tx, ⟨mem_iff_getElem?.mpr ⟨i, hi⟩, hcb⟩, mem_iff_getElem?.mpr ⟨j, hj⟩⟩

/-- The output `j` of the transaction `tx` at position `i` of the received block is one that a
redaction of an id in `A` overwrites. -/
def Overwritten (index : Uint256 → Option ℕ) (A : Uint256 → Prop) (block : CBlock sha256) (c i : ℕ)
    (tx : CTransaction sha256) (j : ℕ) : Prop :=
  (A tx.hash ∧ IsPlace index block c i tx.hash) ∧ firstOpReturn tx.vout = some j

lemma getElem?_setScriptPubKey (vout : List CTxOut) (k j : ℕ) (script : CScript) :
    (setScriptPubKey vout k script)[j]? =
      (vout[j]?).map (fun txout => if k = j then { txout with scriptPubKey := script } else txout) := by
  unfold setScriptPubKey
  rw [getElem?_modify]
  split_ifs <;> simp

variable {c i j : ℕ} {B₀ B : CBlock sha256} {tx₀ tx : CTransaction sha256}

lemma StoredVersion.vout_of_not_overwritten (h : StoredVersion index A chain disk)
    (hB₀ : chain[c]? = some B₀) (hB : disk[c]? = some B) (htx₀ : B₀.vtx[i]? = some tx₀)
    (htx : B.vtx[i]? = some tx) (hnot : ¬Overwritten index A B₀ c i tx₀ j) :
    tx.vout[j]? = tx₀.vout[j]? := by
  by_cases hA : A tx₀.hash ∧ IsPlace index B₀ c i tx₀.hash
  · obtain ⟨op, hred⟩ := h.redacted hB₀ hB htx₀ htx hA.1 hA.2
    obtain ⟨k, txout, hto⟩ := exists_redactsTo hred
    have hkj : k ≠ j := by
      rintro rfl
      exact hnot ⟨hA, hto.index⟩
    rw [hto.vout_eq, getElem?_setScriptPubKey]
    simp [hkj]
  · rw [h.received hB₀ hB htx₀ htx hA]

lemma StoredVersion.vout_of_overwritten (h : StoredVersion index A chain disk)
    (hB₀ : chain[c]? = some B₀) (hB : disk[c]? = some B) (htx₀ : B₀.vtx[i]? = some tx₀)
    (htx : B.vtx[i]? = some tx) (hover : Overwritten index A B₀ c i tx₀ j) :
    ∃ op txout₀ txout, tx₀.vout[j]? = some txout₀ ∧ tx.vout[j]? = some txout ∧
      txout.scriptPubKey = redactedScript op txout₀.scriptPubKey.length := by
  obtain ⟨op, hred⟩ := h.redacted hB₀ hB htx₀ htx hover.1.1 hover.1.2
  obtain ⟨k, txout₀, hto⟩ := exists_redactsTo hred
  obtain rfl := Option.some.inj (hto.index.symm.trans hover.2)
  refine ⟨op, txout₀, { txout₀ with scriptPubKey := redactedScript op txout₀.scriptPubKey.length },
    hto.output, ?_, rfl⟩
  rw [hto.vout_eq, getElem?_setScriptPubKey, hto.output]
  simp

lemma StoredVersion.versionOf_tx (h : StoredVersion index A chain disk) (hB₀ : chain[c]? = some B₀)
    (hB : disk[c]? = some B) (htx₀ : B₀.vtx[i]? = some tx₀) (htx : B.vtx[i]? = some tx) :
    VersionOf tx₀ tx := by
  by_cases hA : A tx₀.hash ∧ IsPlace index B₀ c i tx₀.hash
  · obtain ⟨op, hred⟩ := h.redacted hB₀ hB htx₀ htx hA.1 hA.2
    exact .redacted hred
  · rw [h.received hB₀ hB htx₀ htx hA]
    exact .received

lemma StoredVersion.exists_tx_iff (h : StoredVersion index A chain disk) (hB₀ : chain[c]? = some B₀)
    (hB : disk[c]? = some B) : (∃ tx₀, B₀.vtx[i]? = some tx₀) ↔ ∃ tx, B.vtx[i]? = some tx := by
  have hlen := congrArg List.length (h.ids hB₀ hB)
  simp only [length_map] at hlen
  simp only [getElem?_eq_some_iff]
  constructor
  · rintro ⟨tx₀, hlt, -⟩
    exact ⟨B.vtx[i], by omega, rfl⟩
  · rintro ⟨tx, hlt, -⟩
    exact ⟨B₀.vtx[i], by omega, rfl⟩

/-- An instruction of the block that names `hash` and is not overwritten. -/
def Survives (index : Uint256 → Option ℕ) (A : Uint256 → Prop) (chain : List (CBlock sha256)) (c : ℕ)
    (block : CBlock sha256) (hash : Uint256) : Prop :=
  ∃ (i : ℕ) (tx : CTransaction sha256) (j : ℕ) (txout : CTxOut) (m : Mutant),
    block.vtx[i]? = some tx ∧ tx.isCoinBase = false ∧ tx.vout[j]? = some txout ∧
    ¬Overwritten index A block c i tx j ∧ mutantOf txout.scriptPubKey = some m ∧
    (findMutable index chain c m).isSome = true ∧ m.hashOldTX = hash

lemma StoredVersion.findMutable_isSome (h : StoredVersion index A chain disk) (m : Mutant) :
    (findMutable index disk c m).isSome = (findMutable index chain c m).isSome := by
  cases hfind : findMutable index chain c m with
  | none => rw [h.findMutable_of_none hfind]
  | some p =>
    obtain ⟨tx₀, hight⟩ := p
    obtain ⟨tx, hfind', -⟩ := h.findMutable_of_some hfind
    rw [hfind']
    rfl

lemma StoredVersion.targets_iff (h : StoredVersion index A chain disk) (hB₀ : chain[c]? = some B₀)
    (hB : disk[c]? = some B) (hash : Uint256) :
    Targets index disk c (mutantOutputs B) hash ↔ Survives index A chain c B₀ hash := by
  constructor
  · rintro ⟨txout, hout, m, hm, hfind, rfl⟩
    obtain ⟨i, tx, j, htx, hcb, hj⟩ := mem_mutantOutputs.mp hout
    obtain ⟨tx₀, htx₀⟩ := (h.exists_tx_iff hB₀ hB).mpr ⟨tx, htx⟩
    have hnot : ¬Overwritten index A B₀ c i tx₀ j := by
      intro hover
      obtain ⟨op, txout₀, txout', -, hj', hscript⟩ := h.vout_of_overwritten hB₀ hB htx₀ htx hover
      obtain rfl := Option.some.inj (hj.symm.trans hj')
      rw [hscript, mutantOf_redactedScript] at hm
      cases hm
    rw [h.vout_of_not_overwritten hB₀ hB htx₀ htx hnot] at hj
    rw [(h.versionOf_tx hB₀ hB htx₀ htx).isCoinBase_eq] at hcb
    rw [h.findMutable_isSome] at hfind
    exact ⟨i, tx₀, j, txout, m, htx₀, hcb, hj, hnot, hm, hfind, rfl⟩
  · rintro ⟨i, tx₀, j, txout, m, htx₀, hcb, hj, hnot, hm, hfind, rfl⟩
    obtain ⟨tx, htx⟩ := (h.exists_tx_iff hB₀ hB).mp ⟨tx₀, htx₀⟩
    rw [← h.vout_of_not_overwritten hB₀ hB htx₀ htx hnot] at hj
    rw [← (h.versionOf_tx hB₀ hB htx₀ htx).isCoinBase_eq] at hcb
    rw [← h.findMutable_isSome] at hfind
    exact ⟨txout, mem_mutantOutputs.mpr ⟨i, tx, j, htx, hcb, hj⟩, m, hm, hfind, rfl⟩

lemma targets_of_survives {hash : Uint256} (h : Survives index A chain c B₀ hash) :
    Targets index chain c (mutantOutputs B₀) hash := by
  obtain ⟨i, tx, j, txout, m, htx, hcb, hj, -, hm, hfind, rfl⟩ := h
  exact ⟨txout, mem_mutantOutputs.mpr ⟨i, tx, j, htx, hcb, hj⟩, m, hm, hfind, rfl⟩

end Survivors

section Rebuild

variable {index : Uint256 → Option ℕ} {chain disk : List (CBlock sha256)} {n : ℕ}

lemma PlainUpTo.plain (hplain : PlainUpTo index chain n) {hash : Uint256}
    (h : Redacted index chain n hash) {tx : CTransaction sha256} {c : ℕ}
    (hget : getTransaction index chain hash = some (tx, c)) : Plain tx := by
  obtain ⟨d, block, h1, hd, hblock, txout, hout, m, hm, hfind, rfl⟩ := h
  obtain ⟨⟨tx', c'⟩, hfind⟩ := Option.isSome_iff_exists.mp hfind
  obtain ⟨rfl, rfl⟩ := Prod.mk.inj (Option.some.inj (hget.symm.trans (findMutable_eq_some_iff.mp hfind).1))
  exact hplain d block h1 hd hblock txout hout m tx c hm hfind

lemma StoredVersion.readable (h : StoredVersion index (Redacted index chain n) chain disk)
    (hplain : PlainUpTo index chain n) {k : ℕ} (hread : ReadableUpTo chain k) : ReadableUpTo disk k := by
  intro c B h1 hc hB txout hout
  obtain ⟨i, tx, j, htx, hcb, hj⟩ := mem_mutantOutputs.mp hout
  have hlt := (List.getElem?_eq_some_iff.mp hB).1
  rw [h.length] at hlt
  have hB₀ : chain[c]? = some chain[c] := getElem?_eq_getElem hlt
  obtain ⟨tx₀, htx₀⟩ := (h.exists_tx_iff hB₀ hB).mpr ⟨tx, htx⟩
  have hcb₀ := hcb
  rw [(h.versionOf_tx hB₀ hB htx₀ htx).isCoinBase_eq] at hcb₀
  by_cases hover : Overwritten index (Redacted index chain n) chain[c] c i tx₀ j
  · obtain ⟨op, txout₀, txout', hj₀, hj', hscript⟩ := h.vout_of_overwritten hB₀ hB htx₀ htx hover
    obtain rfl := Option.some.inj (hj.symm.trans hj')
    obtain ⟨-, k', hk', hsize⟩ := hplain.plain hover.1.1
      (getTransaction_eq_some_iff.mpr ⟨_, i, hB₀, hover.1.2, htx₀⟩)
    obtain rfl := Option.some.inj (hk'.symm.trans hover.2)
    obtain ⟨hlt', hret, -⟩ := findIdx?_eq_some_iff_getElem.mp hk'
    have hout₀ : tx₀.vout[k'] = txout₀ := by
      rw [getElem?_eq_getElem hlt'] at hj₀
      exact Option.some.inj hj₀
    have hsize₀ : scriptSizeAt tx₀.vout k' = txout₀.scriptPubKey.length := by
      simp [scriptSizeAt, hj₀]
    rw [hsize₀] at hsize
    have hcongr : substrThrows txout.scriptPubKey = substrThrows txout₀.scriptPubKey := by
      rw [hscript]
      apply substrThrows_congr
      · rw [isOpReturn_redactedScript, ← hout₀]
        exact hret.symm
      · exact length_redactedScript op hsize
    rw [hcongr]
    exact hread c _ h1 hc hB₀ txout₀ (mem_mutantOutputs.mpr ⟨i, tx₀, k', htx₀, hcb₀, hj₀⟩)
  · rw [h.vout_of_not_overwritten hB₀ hB htx₀ htx hover] at hj
    exact hread c _ h1 hc hB₀ txout (mem_mutantOutputs.mpr ⟨i, tx₀, j, htx₀, hcb₀, hj⟩)

/-- An instruction of the blocks 1 to `n` names `hash`, and no redaction of these blocks overwrites
it. -/
def Recorded (index : Uint256 → Option ℕ) (chain : List (CBlock sha256)) (n : ℕ) (hash : Uint256) :
    Prop :=
  ∃ c block, 1 ≤ c ∧ c ≤ n ∧ chain[c]? = some block ∧
    Survives index (Redacted index chain n) chain c block hash

lemma Recorded.redacted {hash : Uint256} (h : Recorded index chain n hash) :
    Redacted index chain n hash := by
  obtain ⟨c, block, h1, hc, hblock, hsurvives⟩ := h
  exact ⟨c, block, h1, hc, hblock, targets_of_survives hsurvives⟩

lemma Synced.aged_eq (h : Synced index chain disk) : aged disk = aged chain := by
  unfold aged
  rw [h.stored.length]

lemma Synced.mem_rebuildKeys (h : Synced index chain disk) {key : Str} :
    key ∈ rebuildKeys index disk ↔
      ∃ hash, Recorded index chain (aged chain) hash ∧ key = hash.getHex := by
  rw [MutableBitcoin.mem_rebuildKeys, h.aged_eq]
  constructor
  · rintro ⟨c, B, hash, h1, hc, hB, htarget, rfl⟩
    have hlt := (List.getElem?_eq_some_iff.mp hB).1
    rw [h.stored.length] at hlt
    have hB₀ : chain[c]? = some chain[c] := getElem?_eq_getElem hlt
    exact ⟨hash, ⟨c, _, h1, hc, hB₀, (h.stored.targets_iff hB₀ hB hash).mp htarget⟩, rfl⟩
  · rintro ⟨hash, ⟨c, B₀, h1, hc, hB₀, hsurvives⟩, rfl⟩
    obtain ⟨B, hB, -⟩ := h.stored.exists_block hB₀
    exact ⟨c, B, hash, h1, hc, hB, (h.stored.targets_iff hB₀ hB hash).mpr hsurvives, rfl⟩

lemma Synced.createTrie (h : Synced index chain disk) (hplain : PlainUpTo index chain (aged chain))
    (hread : ReadableUpTo chain (aged chain)) (mpt : Trie) :
    createTrie index disk mpt =
      .ok (insertNewAll (storedValue index disk) mpt (rebuildKeys index disk)) := by
  apply createTrie_eq
  rw [h.aged_eq]
  exact h.stored.readable hplain hread

lemma Synced.createTrie_of_present (h : Synced index chain disk)
    (hplain : PlainUpTo index chain (aged chain)) (hread : ReadableUpTo chain (aged chain)) {mpt : Trie}
    (hpresent : ∀ hash, Redacted index chain (aged chain) hash → (mpt hash.getHex).isSome = true) :
    MutableBitcoin.createTrie index disk mpt = .ok mpt := by
  rw [h.createTrie hplain hread, insertNewAll_of_present]
  intro key hkey
  obtain ⟨hash, hrecorded, rfl⟩ := h.mem_rebuildKeys.mp hkey
  exact hpresent hash hrecorded.redacted

lemma Synced.createTrie_empty_iff (h : Synced index chain disk)
    (hplain : PlainUpTo index chain (aged chain)) (hread : ReadableUpTo chain (aged chain)) :
    MutableBitcoin.createTrie index disk Trie.empty = .ok (versionMap index chain (aged chain)) ↔
      ∀ hash, Redacted index chain (aged chain) hash → Recorded index chain (aged chain) hash := by
  rw [h.createTrie hplain hread, Except.ok.injEq]
  constructor
  · intro heq hash hred
    obtain ⟨tx, c, -, hval⟩ := h.agrees.value hred
    rw [← heq, insertNewAll_apply] at hval
    split_ifs at hval with hkey
    · obtain ⟨hash', hrecorded, heq'⟩ := h.mem_rebuildKeys.mp hkey.1
      rwa [BaseBlob.getHex_injective heq']
    · cases hval
  · intro hall
    funext key
    rw [insertNewAll_apply]
    by_cases hkey : key ∈ rebuildKeys index disk
    · obtain ⟨hash, hrecorded, rfl⟩ := h.mem_rebuildKeys.mp hkey
      obtain ⟨tx, c, hget, hval⟩ := h.agrees.value hrecorded.redacted
      rw [if_pos ⟨hkey, rfl⟩, hval, storedValue_eq hget]
    · rw [if_neg (fun hc => hkey hc.1)]
      cases hval : versionMap index chain (aged chain) key with
      | none => rfl
      | some value =>
        obtain ⟨hash, hred, rfl⟩ := h.agrees.key (show (versionMap index chain (aged chain) key).isSome = true by rw [hval]; rfl)
        exact absurd (h.mem_rebuildKeys.mpr ⟨hash, hall hash hred, rfl⟩) hkey

end Rebuild

end MutableBitcoin
