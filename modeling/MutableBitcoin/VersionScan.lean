import MutableBitcoin.StoredVersion

/-!
# The scan of a block

What a scan does is said in terms of the blocks as they were received. Every text of an id is applied once, in the
order of the outputs.
-/

namespace MutableBitcoin
open Lib List Option

variable {sha256 : Bytes → Uint256}

section Specification

variable (index : Uint256 → Option ℕ) (chain : List (CBlock sha256)) (b : ℕ)

/-- The instructions that are applied, when the texts in `seen` have been met before. -/
def effective : List Str → List CTxOut → List Mutant
  | _, [] => []
  | seen, txout :: outputs =>
    match mutantOf txout.scriptPubKey with
    | none => effective seen outputs
    | some m =>
      if (findMutable index chain b m).isNone ∨ m.txSID ∈ seen then effective seen outputs
      else m :: effective (m.txSID :: seen) outputs

def versionOf (m : Mutant) : Option (Str × Str) := do
  let (oldTX, _) ← getTransaction index chain m.hashOldTX
  let newTX ← redactTransaction m.op oldTX
  return (newTX.hash.getHex, valueMPT sha256 newTX.toCMutableTransaction)

/-- The next versions of a block of height `b` with these outputs. -/
def versions (seen : List Str) (outputs : List CTxOut) : List (Str × Str) :=
  (effective index chain b seen outputs).filterMap (versionOf index chain)

/-- Some output redacts this id. -/
def Targets (outputs : List CTxOut) (hash : Uint256) : Prop :=
  ∃ txout ∈ outputs, ∃ m, mutantOf txout.scriptPubKey = some m ∧
    (findMutable index chain b m).isSome = true ∧ m.hashOldTX = hash

end Specification

section Lookup

variable {index : Uint256 → Option ℕ} {A : Uint256 → Prop} {chain disk : List (CBlock sha256)}
  {b hight : ℕ} {m : Mutant} {tx : CTransaction sha256}

lemma findMutable_eq_some_iff :
    findMutable index disk b m = some (tx, hight) ↔
      getTransaction index disk m.hashOldTX = some (tx, hight) ∧
        (firstOpReturn tx.vout).isSome = true ∧ hight < b := by
  simp only [findMutable, bind_eq_bind, bind_eq_some_iff, isSome_iff_exists]
  constructor
  · rintro ⟨⟨t, c⟩, hget, k, hk, hif⟩
    split_ifs at hif with hle
    obtain ⟨rfl, rfl⟩ := Prod.mk.inj (Option.some.inj hif)
    exact ⟨hget, ⟨k, hk⟩, Nat.lt_of_not_le hle⟩
  · rintro ⟨hget, ⟨k, hk⟩, hlt⟩
    exact ⟨(tx, hight), hget, k, hk, if_neg (Nat.not_le.mpr hlt)⟩

lemma StoredVersion.findMutable_of_some (h : StoredVersion index A chain disk)
    {tx₀ : CTransaction sha256} (h₀ : findMutable index chain b m = some (tx₀, hight)) :
    ∃ tx, findMutable index disk b m = some (tx, hight) ∧ VersionOf tx₀ tx := by
  obtain ⟨hget, hret, hlt⟩ := findMutable_eq_some_iff.mp h₀
  obtain ⟨tx, hget', hversion, -⟩ := h.getTransaction_of_some hget
  refine ⟨tx, findMutable_eq_some_iff.mpr ⟨hget', ?_, hlt⟩, hversion⟩
  rw [hversion.firstOpReturn_eq]
  exact hret

lemma StoredVersion.findMutable_of_none (h : StoredVersion index A chain disk)
    (h₀ : findMutable index chain b m = none) : findMutable index disk b m = none := by
  rw [eq_none_iff_forall_ne_some] at h₀ ⊢
  rintro ⟨tx, hight⟩ hfind
  obtain ⟨hget, hret, hlt⟩ := findMutable_eq_some_iff.mp hfind
  cases hget₀ : getTransaction index chain m.hashOldTX with
  | none =>
    rw [h.getTransaction_of_none hget₀] at hget
    cases hget
  | some p =>
    obtain ⟨tx₀, c⟩ := p
    obtain ⟨tx', hget', hversion, -⟩ := h.getTransaction_of_some hget₀
    obtain ⟨rfl, rfl⟩ := Prod.mk.inj (Option.some.inj (hget'.symm.trans hget))
    rw [hversion.firstOpReturn_eq] at hret
    exact h₀ (tx₀, c) (findMutable_eq_some_iff.mpr ⟨hget₀, hret, hlt⟩)

end Lookup

section Step

variable {index : Uint256 → Option ℕ} {A : Uint256 → Prop} {chain : List (CBlock sha256)}
  {b : ℕ} {mode : Mode} {st st' : ScanState sha256} {txout : CTxOut}

/-- The scan passes over the output. -/
def Skips (index : Uint256 → Option ℕ) (chain : List (CBlock sha256)) (b : ℕ) (seen : List Str)
    (txout : CTxOut) : Prop :=
  ∀ m, mutantOf txout.scriptPubKey = some m → findMutable index chain b m = none ∨ m.txSID ∈ seen

/-- The instruction `m` of an output redacts `tx₀` at height `hight` to `newTX`. -/
structure Applies (index : Uint256 → Option ℕ) (chain : List (CBlock sha256)) (b : ℕ)
    (seen : List Str) (txout : CTxOut) (m : Mutant) (tx₀ newTX : CTransaction sha256) (hight : ℕ) :
    Prop where
  mutant : mutantOf txout.scriptPubKey = some m
  find : findMutable index chain b m = some (tx₀, hight)
  notSeen : m.txSID ∉ seen
  redact : redactTransaction m.op tx₀ = some newTX

lemma effective_of_skips {seen : List Str} (h : Skips index chain b seen txout) (outputs : List CTxOut) :
    effective index chain b seen (txout :: outputs) = effective index chain b seen outputs := by
  rw [effective]
  cases hm : mutantOf txout.scriptPubKey with
  | none => rfl
  | some m =>
    apply if_pos
    rcases h m hm with hnone | hseen
    · exact Or.inl (by simp [hnone])
    · exact Or.inr hseen

variable {seen : List Str} {m : Mutant} {tx₀ newTX : CTransaction sha256} {hight : ℕ}

lemma Applies.effective (h : Applies index chain b seen txout m tx₀ newTX hight)
    (outputs : List CTxOut) : effective index chain b seen (txout :: outputs) =
      m :: MutableBitcoin.effective index chain b (m.txSID :: seen) outputs := by
  rw [MutableBitcoin.effective, h.mutant]
  exact if_neg (by simp [h.find, h.notSeen])

lemma Applies.getTransaction (h : Applies index chain b seen txout m tx₀ newTX hight) :
    getTransaction index chain m.hashOldTX = some (tx₀, hight) := (findMutable_eq_some_iff.mp h.find).1

lemma Applies.versionOf (h : Applies index chain b seen txout m tx₀ newTX hight) :
    versionOf index chain m =
      some (newTX.hash.getHex, valueMPT sha256 newTX.toCMutableTransaction) := by
  simp [MutableBitcoin.versionOf, h.getTransaction, h.redact]

lemma Applies.hash_eq (h : Applies index chain b seen txout m tx₀ newTX hight) (hplain : Plain tx₀) :
    newTX.hash = m.hashOldTX := by
  obtain ⟨B, i, hB, hplace, htx⟩ := getTransaction_eq_some_iff.mp h.getTransaction
  exact (VersionOf.redacted h.redact).hash_eq hplain |>.trans (hash_of_isPlace hplace htx)

def ScanState.applied (st : ScanState sha256) (m : Mutant) (newTX : CTransaction sha256)
    (disk : List (CBlock sha256)) : ScanState sha256 :=
  ⟨disk, st.mpt.insert newTX.hash.getHex (valueMPT sha256 newTX.toCMutableTransaction),
    m.txSID :: st.mutantInBlock⟩

lemma processOutput_of_skips (hmode : mode ≠ .createMPTRoot)
    (hstored : StoredVersion index A chain st.disk) (hread : substrThrows txout.scriptPubKey = false)
    (h : Skips index chain b st.mutantInBlock txout) :
    processOutput index mode b st txout = some st := by
  unfold processOutput
  rw [if_neg (by simp [hread])]
  cases hm : mutantOf txout.scriptPubKey with
  | none => rfl
  | some m =>
    dsimp only
    cases hfind : findMutable index chain b m with
    | none => rw [hstored.findMutable_of_none hfind]
    | some p =>
      obtain ⟨tx₀, hight⟩ := p
      obtain ⟨tx, hfind', -⟩ := hstored.findMutable_of_some hfind
      have hseen : m.txSID ∈ st.mutantInBlock := (h m hm).resolve_left (by simp [hfind])
      rw [hfind']
      dsimp only
      rw [if_neg hmode]
      exact if_pos hseen

lemma Applies.processOutput (hmode : mode ≠ .createMPTRoot)
    (hstored : StoredVersion index A chain st.disk) (hread : substrThrows txout.scriptPubKey = false)
    (hplain : Plain tx₀) (h : Applies index chain b st.mutantInBlock txout m tx₀ newTX hight) :
    processOutput index mode b st txout =
      (if mode = .updatehotBlock then rewriteDisk st.disk hight m.hashOldTX newTX
        else some st.disk).map (st.applied m newTX) := by
  obtain ⟨tx, hfind, hversion⟩ := hstored.findMutable_of_some h.find
  have hred : redactTransaction m.op tx = some newTX :=
    (hversion.redactTransaction_eq hplain m.op).trans h.redact
  unfold MutableBitcoin.processOutput
  rw [if_neg (by simp [hread]), h.mutant]
  dsimp only
  rw [hfind]
  dsimp only
  rw [if_neg hmode]
  unfold nextVersion
  rw [if_neg h.notSeen, hred]
  simp only [bind_eq_bind, bind_some, map_eq_bind]
  rfl

lemma processOutput_cases (hmode : mode ≠ .createMPTRoot)
    (hstored : StoredVersion index A chain st.disk)
    (hplain : ∀ m tx₀ hight, mutantOf txout.scriptPubKey = some m →
      findMutable index chain b m = some (tx₀, hight) → Plain tx₀)
    (hstep : processOutput index mode b st txout = some st') :
    substrThrows txout.scriptPubKey = false ∧
    ((Skips index chain b st.mutantInBlock txout ∧ st' = st) ∨
      ∃ m tx₀ newTX hight disk, Applies index chain b st.mutantInBlock txout m tx₀ newTX hight ∧
        Plain tx₀ ∧
        (if mode = .updatehotBlock then rewriteDisk st.disk hight m.hashOldTX newTX
          else some st.disk) = some disk ∧ st' = st.applied m newTX disk) := by
  have hread : substrThrows txout.scriptPubKey = false := by
    rw [← Bool.not_eq_true]
    intro hthrows
    simp [processOutput, hthrows] at hstep
  refine ⟨hread, ?_⟩
  by_cases hskip : Skips index chain b st.mutantInBlock txout
  · rw [processOutput_of_skips hmode hstored hread hskip] at hstep
    exact Or.inl ⟨hskip, (Option.some.inj hstep).symm⟩
  · right
    unfold Skips at hskip
    push Not at hskip
    obtain ⟨m, hm, hfind, hseen⟩ := hskip
    obtain ⟨⟨tx₀, hight⟩, hfind⟩ := ne_none_iff_exists'.mp hfind
    have hplain₀ := hplain m tx₀ hight hm hfind
    cases hred : redactTransaction m.op tx₀ with
    | none =>
      obtain ⟨tx, hfind', hversion⟩ := hstored.findMutable_of_some hfind
      have hnone := (hversion.redactTransaction_eq hplain₀ m.op).trans hred
      simp [processOutput, hread, hm, hfind', hmode, nextVersion, hseen, hnone] at hstep
    | some newTX =>
      have happ : Applies index chain b st.mutantInBlock txout m tx₀ newTX hight :=
        ⟨hm, hfind, hseen, hred⟩
      rw [happ.processOutput hmode hstored hread hplain₀, map_eq_some_iff] at hstep
      obtain ⟨disk, hdisk, rfl⟩ := hstep
      exact ⟨m, tx₀, newTX, hight, disk, happ, hplain₀, hdisk, rfl⟩

lemma Applies.rewriteDisk {disk : List (CBlock sha256)} (hstored : StoredVersion index A chain disk)
    (hplain : Plain tx₀) (h : Applies index chain b seen txout m tx₀ newTX hight) :
    ∃ disk', rewriteDisk disk hight m.hashOldTX newTX = some disk' ∧
      StoredVersion index (fun x => A x ∨ x = m.hashOldTX) chain disk' ∧
      ∀ x, MutableBitcoin.getTransaction index disk' x =
        if x = m.hashOldTX then some (newTX, hight) else MutableBitcoin.getTransaction index disk x := by
  obtain ⟨B₀, i, hB₀, hplace, htx₀⟩ := getTransaction_eq_some_iff.mp h.getTransaction
  obtain ⟨tx, hget, -, -⟩ := hstored.getTransaction_of_some h.getTransaction
  obtain ⟨B, j, hB, hplace', htx⟩ := getTransaction_eq_some_iff.mp hget
  have hij := Option.some.inj (((isPlace_congr (hstored.ids hB₀ hB)).mp hplace').2.symm.trans hplace.2)
  subst hij
  have hnew : newTX.hash = tx.hash := (h.hash_eq hplain).trans (hash_of_isPlace hplace' htx).symm
  obtain ⟨disk', hdisk', hw⟩ := exists_rewriteDisk hB hplace' htx hnew
  exact ⟨disk', hdisk', hstored.rewrites hB₀ hplace htx₀ h.redact hw, hw.getTransaction_eq hB hplace'⟩

end Step

section Run

variable {index : Uint256 → Option ℕ} {A : Uint256 → Prop} {chain : List (CBlock sha256)}
  {b : ℕ} {mode : Mode} {st st' : ScanState sha256} {outputs : List CTxOut}

/-- What the outputs redact has no witness. -/
def PlainTargets (index : Uint256 → Option ℕ) (chain : List (CBlock sha256)) (b : ℕ)
    (outputs : List CTxOut) : Prop :=
  ∀ txout ∈ outputs, ∀ m tx₀ hight, mutantOf txout.scriptPubKey = some m →
    findMutable index chain b m = some (tx₀, hight) → Plain tx₀

lemma exists_storedVersion_step (hmode : mode ≠ .createMPTRoot) {txout : CTxOut}
    (hstored : StoredVersion index A chain st.disk) (hplain : PlainTargets index chain b (txout :: outputs))
    (hstep : processOutput index mode b st txout = some st') :
    ∃ A', StoredVersion index A' chain st'.disk := by
  obtain ⟨-, ⟨-, rfl⟩ | ⟨m, tx₀, newTX, hight, disk, happ, hplain₀, hdisk, rfl⟩⟩ :=
    processOutput_cases hmode hstored (hplain txout mem_cons_self) hstep
  · exact ⟨A, hstored⟩
  · split_ifs at hdisk
    · obtain ⟨disk', hdisk', hstored', -⟩ := happ.rewriteDisk hstored hplain₀
      obtain rfl := Option.some.inj (hdisk'.symm.trans hdisk)
      exact ⟨_, hstored'⟩
    · obtain rfl := Option.some.inj hdisk
      exact ⟨A, hstored⟩

lemma scan_mpt (hmode : mode ≠ .createMPTRoot) (hstored : StoredVersion index A chain st.disk)
    (hplain : PlainTargets index chain b outputs)
    (hrun : outputs.foldlM (processOutput index mode b) st = some st') :
    st'.mpt = insertAll st.mpt (versions index chain b st.mutantInBlock outputs) := by
  induction outputs generalizing st A with
  | nil =>
    obtain rfl := Option.some.inj hrun
    rfl
  | cons txout outputs ih =>
    rw [foldlM_cons] at hrun
    obtain ⟨mid, hstep, hrest⟩ := bind_eq_some_iff.mp hrun
    obtain ⟨A', hstored'⟩ := exists_storedVersion_step hmode hstored hplain hstep
    have htail : PlainTargets index chain b outputs := fun o ho => hplain o (mem_cons_of_mem _ ho)
    rw [ih hstored' htail hrest]
    unfold versions
    obtain ⟨-, ⟨hskip, rfl⟩ | ⟨m, tx₀, newTX, hight, disk, happ, -, -, rfl⟩⟩ :=
      processOutput_cases hmode hstored (hplain txout mem_cons_self) hstep
    · rw [effective_of_skips hskip]
    · rw [happ.effective, filterMap_cons_some happ.versionOf]
      rfl

/-- The trie holds, for exactly the ids in `A`, the values of what is stored. -/
structure Agrees (index : Uint256 → Option ℕ) (A : Uint256 → Prop) (disk : List (CBlock sha256))
    (mpt : Trie) : Prop where
  value : ∀ {hash : Uint256}, A hash → ∃ tx hight, getTransaction index disk hash = some (tx, hight) ∧
    mpt hash.getHex = some (valueMPT sha256 tx.toCMutableTransaction)
  key : ∀ {key : Str}, (mpt key).isSome = true → ∃ hash, A hash ∧ key = hash.getHex

lemma Applies.agrees {seen : List Str} {txout : CTxOut} {m : Mutant} {tx₀ newTX : CTransaction sha256}
    {hight : ℕ} {disk disk' : List (CBlock sha256)} {mpt : Trie}
    (h : Applies index chain b seen txout m tx₀ newTX hight) (hplain : Plain tx₀)
    (hget : ∀ x, MutableBitcoin.getTransaction index disk' x =
      if x = m.hashOldTX then some (newTX, hight) else MutableBitcoin.getTransaction index disk x)
    (hagrees : Agrees index A disk mpt) :
    Agrees index (fun x => A x ∨ x = m.hashOldTX) disk'
      (mpt.insert newTX.hash.getHex (valueMPT sha256 newTX.toCMutableTransaction)) := by
  rw [h.hash_eq hplain]
  unfold Trie.insert
  constructor
  · intro x hx
    by_cases hxm : x = m.hashOldTX
    · subst hxm
      exact ⟨newTX, hight, by rw [hget, if_pos rfl], Function.update_self ..⟩
    · obtain ⟨tx, c, htx, hval⟩ := hagrees.value (hx.resolve_right hxm)
      refine ⟨tx, c, by rw [hget, if_neg hxm, htx], ?_⟩
      rw [Function.update_of_ne (fun hkey => hxm (BaseBlob.getHex_injective hkey))]
      exact hval
  · intro key hkey
    by_cases hkm : key = m.hashOldTX.getHex
    · exact ⟨m.hashOldTX, Or.inr rfl, hkm⟩
    · rw [Function.update_of_ne hkm] at hkey
      obtain ⟨x, hx, rfl⟩ := hagrees.key hkey
      exact ⟨x, Or.inl hx, rfl⟩

lemma or_targets_of_skips {seen : List Str} {txout : CTxOut} (hskip : Skips index chain b seen txout)
    (hseen : ∀ s ∈ seen, A (uint256S s)) :
    (fun x => A x ∨ Targets index chain b (txout :: outputs) x) =
      fun x => A x ∨ Targets index chain b outputs x := by
  funext x
  apply propext
  constructor
  · rintro (hA | ⟨o, ho, m, hm, hfind, rfl⟩)
    · exact Or.inl hA
    · rcases mem_cons.mp ho with rfl | ho
      · left
        apply hseen
        exact (hskip m hm).resolve_left (fun hnone => by simp [hnone] at hfind)
      · exact Or.inr ⟨o, ho, m, hm, hfind, rfl⟩
  · rintro (hA | ⟨o, ho, hrest⟩)
    · exact Or.inl hA
    · exact Or.inr ⟨o, mem_cons_of_mem _ ho, hrest⟩

lemma Applies.or_targets {seen : List Str} {txout : CTxOut} {m : Mutant}
    {tx₀ newTX : CTransaction sha256} {hight : ℕ}
    (h : Applies index chain b seen txout m tx₀ newTX hight) :
    (fun x => A x ∨ Targets index chain b (txout :: outputs) x) =
      fun x => (A x ∨ x = m.hashOldTX) ∨ Targets index chain b outputs x := by
  funext x
  apply propext
  constructor
  · rintro (hA | ⟨o, ho, m', hm', hfind, rfl⟩)
    · exact Or.inl (Or.inl hA)
    · rcases mem_cons.mp ho with rfl | ho
      · obtain rfl := Option.some.inj (h.mutant.symm.trans hm')
        exact Or.inl (Or.inr rfl)
      · exact Or.inr ⟨o, ho, m', hm', hfind, rfl⟩
  · rintro ((hA | rfl) | ⟨o, ho, hrest⟩)
    · exact Or.inl hA
    · exact Or.inr ⟨txout, mem_cons_self, m, h.mutant, by simp [h.find], rfl⟩
    · exact Or.inr ⟨o, mem_cons_of_mem _ ho, hrest⟩

lemma scan_updatehotBlock (hstored : StoredVersion index A chain st.disk)
    (hplain : PlainTargets index chain b outputs) (hseen : ∀ s ∈ st.mutantInBlock, A (uint256S s))
    (hrun : outputs.foldlM (processOutput index .updatehotBlock b) st = some st') :
    StoredVersion index (fun x => A x ∨ Targets index chain b outputs x) chain st'.disk ∧
      ∀ mpt, Agrees index A st.disk mpt →
        Agrees index (fun x => A x ∨ Targets index chain b outputs x) st'.disk
          (insertAll mpt (versions index chain b st.mutantInBlock outputs)) := by
  induction outputs generalizing st A with
  | nil =>
    obtain rfl := Option.some.inj hrun
    have hA : (fun x => A x ∨ Targets index chain b [] x) = A := by
      funext x
      simp [Targets]
    rw [hA]
    exact ⟨hstored, fun mpt h => h⟩
  | cons txout outputs ih =>
    rw [foldlM_cons] at hrun
    obtain ⟨mid, hstep, hrest⟩ := bind_eq_some_iff.mp hrun
    have htail : PlainTargets index chain b outputs := fun o ho => hplain o (mem_cons_of_mem _ ho)
    obtain ⟨-, ⟨hskip, rfl⟩ | ⟨m, tx₀, newTX, hight, disk, happ, hplain₀, hdisk, rfl⟩⟩ :=
      processOutput_cases (by decide) hstored (hplain txout mem_cons_self) hstep
    · unfold versions
      rw [or_targets_of_skips hskip hseen, effective_of_skips hskip]
      exact ih hstored htail hseen hrest
    · unfold versions
      rw [happ.or_targets, happ.effective, filterMap_cons_some happ.versionOf]
      obtain ⟨disk', hdisk', hstored', hget⟩ := happ.rewriteDisk hstored hplain₀
      obtain rfl := Option.some.inj (hdisk'.symm.trans hdisk)
      have hseen' : ∀ s ∈ m.txSID :: st.mutantInBlock, A (uint256S s) ∨ uint256S s = m.hashOldTX := by
        intro s hs
        rcases mem_cons.mp hs with rfl | hs
        · exact Or.inr rfl
        · exact Or.inl (hseen s hs)
      obtain ⟨hend, hagrees⟩ := ih hstored' htail hseen' hrest
      refine ⟨hend, ?_⟩
      intro mpt h
      exact hagrees _ (happ.agrees hplain₀ hget h)

/-- Every output of the block can be read, and what it names lies below. -/
structure Scannable (index : Uint256 → Option ℕ) (chain : List (CBlock sha256)) (b : ℕ)
    (outputs : List CTxOut) : Prop where
  readable : ∀ txout ∈ outputs, substrThrows txout.scriptPubKey = false
  plain : PlainTargets index chain b outputs
  below : ∀ txout ∈ outputs, ∀ m tx₀ hight, mutantOf txout.scriptPubKey = some m →
    findMutable index chain b m = some (tx₀, hight) → tx₀.RandomnessBelow

lemma Scannable.tail {txout : CTxOut} (h : Scannable index chain b (txout :: outputs)) :
    Scannable index chain b outputs where
  readable o ho := h.readable o (mem_cons_of_mem _ ho)
  plain o ho := h.plain o (mem_cons_of_mem _ ho)
  below o ho := h.below o (mem_cons_of_mem _ ho)

lemma exists_scan (hmode : mode ≠ .createMPTRoot) (hstored : StoredVersion index A chain st.disk)
    (hscan : Scannable index chain b outputs) :
    ∃ st', outputs.foldlM (processOutput index mode b) st = some st' := by
  induction outputs generalizing st A with
  | nil => exact ⟨st, rfl⟩
  | cons txout outputs ih =>
    have hread := hscan.readable txout mem_cons_self
    have hmid : ∃ mid, processOutput index mode b st txout = some mid := by
      by_cases hskip : Skips index chain b st.mutantInBlock txout
      · exact ⟨st, processOutput_of_skips hmode hstored hread hskip⟩
      · unfold Skips at hskip
        push Not at hskip
        obtain ⟨m, hm, hfind, hseen⟩ := hskip
        obtain ⟨⟨tx₀, hight⟩, hfind⟩ := ne_none_iff_exists'.mp hfind
        have hplain₀ := hscan.plain txout mem_cons_self m tx₀ hight hm hfind
        obtain ⟨k, hk⟩ := isSome_iff_exists.mp (findMutable_eq_some_iff.mp hfind).2.1
        obtain ⟨newTX, hred⟩ : ∃ newTX, redactTransaction m.op tx₀ = some newTX :=
          redactTransaction_isSome (hscan.below txout mem_cons_self m tx₀ hight hm hfind) hk
        have happ : Applies index chain b st.mutantInBlock txout m tx₀ newTX hight :=
          ⟨hm, hfind, hseen, hred⟩
        obtain ⟨disk', hdisk', -⟩ := happ.rewriteDisk hstored hplain₀
        rw [happ.processOutput hmode hstored hread hplain₀]
        split_ifs
        · exact ⟨_, by rw [hdisk']; rfl⟩
        · exact ⟨_, rfl⟩
    obtain ⟨mid, hstep⟩ := hmid
    obtain ⟨A', hstored'⟩ := exists_storedVersion_step hmode hstored hscan.plain hstep
    obtain ⟨st', hrest⟩ := ih hstored' hscan.tail
    exact ⟨st', by rw [foldlM_cons, hstep]; exact hrest⟩

lemma readable_of_scan (hmode : mode ≠ .createMPTRoot) (hstored : StoredVersion index A chain st.disk)
    (hplain : PlainTargets index chain b outputs)
    (hrun : outputs.foldlM (processOutput index mode b) st = some st') :
    ∀ txout ∈ outputs, substrThrows txout.scriptPubKey = false := by
  induction outputs generalizing st A with
  | nil => simp
  | cons txout outputs ih =>
    rw [foldlM_cons] at hrun
    obtain ⟨mid, hstep, hrest⟩ := bind_eq_some_iff.mp hrun
    obtain ⟨A', hstored'⟩ := exists_storedVersion_step hmode hstored hplain hstep
    have htail : PlainTargets index chain b outputs := fun o ho => hplain o (mem_cons_of_mem _ ho)
    rw [forall_mem_cons]
    exact ⟨(processOutput_cases hmode hstored (hplain txout mem_cons_self) hstep).1,
      ih hstored' htail hrest⟩

end Run

end MutableBitcoin
