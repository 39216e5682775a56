import MutableBitcoin.SignatureChecker
import MutableBitcoin.BlockFile
import MutableBitcoin.DuplicateIds

/-!
# The script execution cache

`CheckInputs` of `validation.cpp`. Once all scripts of a transaction have passed, a hash of a nonce, the witness
hash and the script flags is stored, and a transaction with the same entry passes without running its scripts.
-/

namespace MutableBitcoin
open Lib List

/-- What `VerifyScript` is given besides the flags. -/
structure ScriptInput where
  scriptSig : CScript
  scriptPubKey : CScript
  witness : List Bytes
  checker : SignatureChecker

/-- The text of the script error, `none` if the script passes. -/
abbrev VerifyScript := ScriptInput → UInt32 → Except Failure (Option String)

/-- The check of one input. -/
structure CScriptCheck (sha256 : Bytes → Uint256) where
  scriptPubKey : CScript
  amount : CAmount
  ptxTo : CTransaction sha256
  nIn : Fin ptxTo.vin.length
  nFlags : UInt32
  txdata : PrecomputedTransactionData

section CheckInputs

variable {sha256 : Bytes → Uint256} (pubKeyVerify : Bytes → Uint256 → Bytes → Bool)
  (verifyScript : VerifyScript)

namespace CScriptCheck

def scriptInput (check : CScriptCheck sha256) : ScriptInput where
  scriptSig := (check.ptxTo.vin.get check.nIn).scriptSig
  scriptPubKey := check.scriptPubKey
  witness := (check.ptxTo.vin.get check.nIn).scriptWitness
  checker := transactionSignatureChecker sha256 pubKeyVerify check.ptxTo.toCMutableTransaction
    check.nIn check.amount check.txdata

/-- `CScriptCheck::operator()`, with the error that it leaves. -/
def call (check : CScriptCheck sha256) : Except Failure (Option String) :=
  verifyScript (check.scriptInput pubKeyVerify) check.nFlags

end CScriptCheck

/-- The check of one input inside `CheckInputs`; a failure is blamed on the flags that are not
mandatory if the script passes without them. -/
def runCheck (check : CScriptCheck sha256) : Except Failure Unit := do
  match ← check.call pubKeyVerify verifyScript with
  | none => return ()
  | some error =>
    let fStandard ← (if check.nFlags &&& STANDARD_NOT_MANDATORY_VERIFY_FLAGS != 0 then do
        let check2 := { check with nFlags := check.nFlags &&& ~~~STANDARD_NOT_MANDATORY_VERIFY_FLAGS }
        return (← check2.call pubKeyVerify verifyScript).isNone
      else .ok false)
    failIf fStandard 0 ("non-mandatory-script-verify-flag (" ++ error ++ ")") false
    failIf true 100 ("mandatory-script-verify-flag-failed (" ++ error ++ ")") false

/-- The check that `CheckInputs` builds for an input. -/
def scriptCheck (view : CCoinsViewCache) (tx : CTransaction sha256) (flags : UInt32)
    (txdata : PrecomputedTransactionData) (i : Fin tx.vin.length) : CScriptCheck sha256 where
  scriptPubKey := (view.accessCoin (tx.vin.get i).prevout).out.scriptPubKey
  amount := (view.accessCoin (tx.vin.get i).prevout).out.nValue
  ptxTo := tx
  nIn := i
  nFlags := flags
  txdata := txdata

/-- The loop over the inputs, and the checks pushed onto `pvChecks`. The coins have been fetched
by `CheckTxInputs`, so `AccessCoin` leaves the cache as it is. -/
def checkScripts (view : CCoinsViewCache) (tx : CTransaction sha256) (flags : UInt32)
    (txdata : PrecomputedTransactionData) (pvChecks : Bool) :
    List (Fin tx.vin.length) → Except Failure (List (CScriptCheck sha256))
  | [] => .ok []
  | i :: is => do
    assertThat (!(view.accessCoin (tx.vin.get i).prevout).isSpent)
    let check := scriptCheck view tx flags txdata i
    let pushed ← (if pvChecks then .ok [check]
      else (runCheck pubKeyVerify verifyScript check).map (fun _ => []))
    let checks ← checkScripts view tx flags txdata pvChecks is
    return pushed ++ checks

def hashCacheEntry (nonce : Uint256) (tx : CTransaction sha256) (flags : UInt32) : Uint256 :=
  sha256 (nonce.data.take 19 ++ tx.witnessHash.data ++ serializeUInt32 flags)

/-- The view and the pushed checks, and the entries of the cache afterwards. Looking an entry up
with the order to erase it only marks its place as free. -/
def checkInputs (nonce : Uint256) (scriptExecutionCache : Uint256 → Bool) (tx : CTransaction sha256)
    (view : CCoinsViewCache) (nSpendHeight : ℕ) (fScriptChecks : Bool) (flags : UInt32)
    (cacheFullScriptStore : Bool) (txdata : PrecomputedTransactionData) (pvChecks : Bool) :
    Except Failure (CCoinsViewCache × List (CScriptCheck sha256)) × (Uint256 → Bool) :=
  if tx.isCoinBase then (.ok (view, []), scriptExecutionCache)
  else
    match checkTxInputs view tx nSpendHeight with
    | .error f => (.error f, scriptExecutionCache)
    | .ok view =>
      if !fScriptChecks then (.ok (view, []), scriptExecutionCache)
      else if scriptExecutionCache (hashCacheEntry nonce tx flags) then
        (.ok (view, []), scriptExecutionCache)
      else
        match checkScripts pubKeyVerify verifyScript view tx flags txdata pvChecks
            (List.finRange tx.vin.length) with
        | .error f => (.error f, scriptExecutionCache)
        | .ok checks =>
          (.ok (view, checks),
            if cacheFullScriptStore && !pvChecks then
              Function.update scriptExecutionCache (hashCacheEntry nonce tx flags) true
            else scriptExecutionCache)

/-- The verdict on the inputs: that of `CheckInputs`, and then that of the queue, which runs the
pushed checks up to the first that fails. -/
def inputsVerdict (r : Except Failure (CCoinsViewCache × List (CScriptCheck sha256))) :
    Except Failure CCoinsViewCache := do
  let (view, checks) ← r
  checks.forM (fun check => do
    let error ← check.call pubKeyVerify verifyScript
    failIf error.isSome 100 "block-validation-failed" false)
  return view

end CheckInputs

section Inputs

variable {sha256 : Bytes → Uint256} (pubKeyVerify : Bytes → Uint256 → Bytes → Bool)
  (verifyScript : VerifyScript) (view : CCoinsViewCache) (tx : CTransaction sha256)

def scriptInputs : List ScriptInput :=
  (List.finRange tx.vin.length).map (fun i => (scriptCheck view tx 0
    (precomputedTransactionData sha256 tx.toCMutableTransaction) i).scriptInput pubKeyVerify)

/-- All scripts of the transaction pass. -/
def ScriptsPass (flags : UInt32) : Prop :=
  ∀ input ∈ scriptInputs pubKeyVerify view tx, verifyScript input flags = .ok none

/-- The inexpensive checks of `CheckInputs` pass. -/
def ReachesScripts (nSpendHeight : ℕ) : Prop :=
  tx.isCoinBase = false ∧ ∃ view', checkTxInputs view tx nSpendHeight = .ok view'

variable {pubKeyVerify verifyScript view tx} {nSpendHeight : ℕ} {flags : UInt32}

lemma checkTxInputs_eq_ok {view' : CCoinsViewCache} (h : checkTxInputs view tx nSpendHeight = .ok view') :
    view.HasInputs tx.vin ∧ view' = view.fetchAll tx.vin := by
  by_cases hin : view.HasInputs tx.vin
  · refine ⟨hin, ?_⟩
    unfold checkTxInputs at h
    rw [CCoinsViewCache.haveInputs_of_have hin] at h
    simp only [accessCoins_fetchAll, bind_eq_ok_iff] at h
    obtain ⟨-, -, nValueIn, -, nValueOut, -, -, -, -, -, -, -, h⟩ := h
    exact (Except.ok.inj h).symm
  · exfalso
    have hfalse := CCoinsViewCache.haveInputs_of_not_have hin
    unfold checkTxInputs at h
    cases hi : view.haveInputs tx.vin with
    | mk view₁ fHave =>
      rw [hi] at h hfalse
      obtain rfl : fHave = false := hfalse
      cases h

lemma runCheck_eq_ok_iff {check : CScriptCheck sha256} :
    runCheck pubKeyVerify verifyScript check = .ok () ↔ check.call pubKeyVerify verifyScript = .ok none := by
  unfold runCheck
  rw [bind_eq_ok_iff]
  constructor
  · rintro ⟨result, hcall, hresult⟩
    cases result with
    | none => exact hcall
    | some error =>
      obtain ⟨fStandard, -, hresult⟩ := bind_eq_ok_iff.mp hresult
      obtain ⟨-, hresult⟩ := unit_bind_eq_ok_iff.mp hresult
      cases hresult
  · intro hcall
    exact ⟨none, hcall, rfl⟩

def scriptChecks (view : CCoinsViewCache) (tx : CTransaction sha256) (flags : UInt32) :
    List (CScriptCheck sha256) :=
  (List.finRange tx.vin.length).map
    (scriptCheck view tx flags (precomputedTransactionData sha256 tx.toCMutableTransaction))

lemma scriptCheck_fetchAll (vin : List CTxIn) (txdata : PrecomputedTransactionData)
    (i : Fin tx.vin.length) :
    scriptCheck (view.fetchAll vin) tx flags txdata i = scriptCheck view tx flags txdata i := by
  simp [scriptCheck]

lemma assertThat_accessCoin_fetchAll (hin : view.HasInputs tx.vin) (i : Fin tx.vin.length) :
    assertThat (!((view.fetchAll tx.vin).accessCoin (tx.vin.get i).prevout).isSpent) = .ok () := by
  rw [CCoinsViewCache.accessCoin_fetchAll, CCoinsViewCache.isSpent_accessCoin (hin _ (get_mem _ _))]
  rfl

lemma checkScripts_push (hin : view.HasInputs tx.vin) (txdata : PrecomputedTransactionData)
    (is : List (Fin tx.vin.length)) :
    checkScripts pubKeyVerify verifyScript (view.fetchAll tx.vin) tx flags txdata true is =
      .ok (is.map (scriptCheck view tx flags txdata)) := by
  induction is with
  | nil => rfl
  | cons i is ih =>
    unfold checkScripts
    rw [assertThat_accessCoin_fetchAll hin, scriptCheck_fetchAll, ih]
    rfl

lemma checkScripts_run (hin : view.HasInputs tx.vin) (txdata : PrecomputedTransactionData)
    (is : List (Fin tx.vin.length)) {checks : List (CScriptCheck sha256)} :
    checkScripts pubKeyVerify verifyScript (view.fetchAll tx.vin) tx flags txdata false is = .ok checks ↔
      (∀ check ∈ is.map (scriptCheck view tx flags txdata),
        check.call pubKeyVerify verifyScript = .ok none) ∧ checks = [] := by
  induction is generalizing checks with
  | nil => simp [checkScripts, eq_comm]
  | cons i is ih =>
    unfold checkScripts
    rw [assertThat_accessCoin_fetchAll hin, scriptCheck_fetchAll, ok_bind]
    dsimp only
    rw [if_neg Bool.false_ne_true, map_cons, forall_mem_cons, bind_eq_ok_iff]
    constructor
    · rintro ⟨pushed, hrun, hrest⟩
      obtain ⟨u, hcall, rfl⟩ := map_eq_ok_iff.mp hrun
      obtain ⟨checks', hloop, hchecks⟩ := bind_eq_ok_iff.mp hrest
      obtain ⟨hall, rfl⟩ := ih.mp hloop
      exact ⟨⟨runCheck_eq_ok_iff.mp hcall, hall⟩, (Except.ok.inj hchecks).symm⟩
    · rintro ⟨⟨hcall, hall⟩, rfl⟩
      refine ⟨[], ?_, ?_⟩
      · rw [runCheck_eq_ok_iff.mpr hcall]
        rfl
      · rw [ih.mpr ⟨hall, rfl⟩]
        rfl

lemma scriptsPass_iff :
    ScriptsPass pubKeyVerify verifyScript view tx flags ↔
      ∀ check ∈ scriptChecks view tx flags, check.call pubKeyVerify verifyScript = .ok none := by
  unfold ScriptsPass scriptInputs scriptChecks
  rw [forall_mem_map, forall_mem_map]
  rfl

lemma inputsVerdict_of_pass {nonce : Uint256} (hcb : tx.isCoinBase = false)
    {view' : CCoinsViewCache} (hin : checkTxInputs view tx nSpendHeight = .ok view')
    (cacheFullScriptStore pvChecks : Bool)
    (hpass : ScriptsPass pubKeyVerify verifyScript view tx flags) :
    inputsVerdict pubKeyVerify verifyScript (checkInputs pubKeyVerify verifyScript nonce
      (fun _ => false) tx view nSpendHeight true flags cacheFullScriptStore
      (precomputedTransactionData sha256 tx.toCMutableTransaction) pvChecks).1 = .ok view' := by
  obtain ⟨hhave, rfl⟩ := checkTxInputs_eq_ok hin
  have hcalls := scriptsPass_iff.mp hpass
  unfold checkInputs
  rw [if_neg (by simp [hcb]), hin]
  dsimp only
  rw [if_neg (by simp), if_neg Bool.false_ne_true]
  cases pvChecks with
  | true =>
    rw [checkScripts_push hhave]
    unfold inputsVerdict
    rw [ok_bind, bind_eq_ok_iff]
    refine ⟨(), ?_, rfl⟩
    rw [forM_eq_ok_iff]
    intro check hcheck
    rw [hcalls check hcheck]
    rfl
  | false =>
    rw [(checkScripts_run hhave _ _).mpr ⟨hcalls, rfl⟩]
    rfl

lemma scriptsPass_of_checkInputs {nonce : Uint256} {scriptExecutionCache : Uint256 → Bool}
    (hcb : tx.isCoinBase = false) {view' : CCoinsViewCache}
    (hin : checkTxInputs view tx nSpendHeight = .ok view')
    (hmiss : scriptExecutionCache (hashCacheEntry nonce tx flags) = false)
    {r : CCoinsViewCache × List (CScriptCheck sha256)} {cacheFullScriptStore : Bool}
    (h : (checkInputs pubKeyVerify verifyScript nonce scriptExecutionCache tx view nSpendHeight true
      flags cacheFullScriptStore (precomputedTransactionData sha256 tx.toCMutableTransaction) false).1 =
      .ok r) :
    ScriptsPass pubKeyVerify verifyScript view tx flags := by
  obtain ⟨hhave, rfl⟩ := checkTxInputs_eq_ok hin
  unfold checkInputs at h
  rw [if_neg (by simp [hcb]), hin] at h
  dsimp only at h
  rw [if_neg (by simp), if_neg (by simp [hmiss])] at h
  cases hrun : checkScripts pubKeyVerify verifyScript (view.fetchAll tx.vin) tx flags
      (precomputedTransactionData sha256 tx.toCMutableTransaction) false (List.finRange tx.vin.length) with
  | error f =>
    rw [hrun] at h
    cases h
  | ok checks => exact scriptsPass_iff.mpr ((checkScripts_run hhave _ _).mp hrun).1

end Inputs

section Soundness

variable {sha256 : Bytes → Uint256}

/-- Once `CheckInputs` has run the scripts of the first transaction and stored its entry, the second
transaction meets with the verdict that it meets with without the cache. -/
def CacheSound (pubKeyVerify : Bytes → Uint256 → Bytes → Bool) (verifyScript : VerifyScript)
    (nonce : Uint256) (view : CCoinsViewCache) (nSpendHeight : ℕ) (flags : UInt32)
    (tx₁ tx₂ : CTransaction sha256) : Prop :=
  ∀ before after r, before (hashCacheEntry nonce tx₁ flags) = false →
    checkInputs pubKeyVerify verifyScript nonce before tx₁ view nSpendHeight true flags true
      (precomputedTransactionData sha256 tx₁.toCMutableTransaction) false = (.ok r, after) →
    after (hashCacheEntry nonce tx₁ flags) = true →
    ∀ fScriptChecks cacheFullScriptStore pvChecks,
      inputsVerdict pubKeyVerify verifyScript (checkInputs pubKeyVerify verifyScript nonce after tx₂
        view nSpendHeight fScriptChecks flags cacheFullScriptStore
        (precomputedTransactionData sha256 tx₂.toCMutableTransaction) pvChecks).1 =
      inputsVerdict pubKeyVerify verifyScript (checkInputs pubKeyVerify verifyScript nonce
        (fun _ => false) tx₂ view nSpendHeight fScriptChecks flags cacheFullScriptStore
        (precomputedTransactionData sha256 tx₂.toCMutableTransaction) pvChecks).1

variable {pubKeyVerify : Bytes → Uint256 → Bytes → Bool} {verifyScript : VerifyScript}
  {nonce : Uint256} {view : CCoinsViewCache} {nSpendHeight : ℕ} {flags : UInt32}
  {tx tx₁ tx₂ : CTransaction sha256}

lemma reachesScripts_of_stored {before after : Uint256 → Bool}
    {r : CCoinsViewCache × List (CScriptCheck sha256)}
    (hbefore : before (hashCacheEntry nonce tx flags) = false)
    (h : checkInputs pubKeyVerify verifyScript nonce before tx view nSpendHeight true flags true
      (precomputedTransactionData sha256 tx.toCMutableTransaction) false = (.ok r, after))
    (hafter : after (hashCacheEntry nonce tx flags) = true) : ReachesScripts view tx nSpendHeight := by
  unfold checkInputs at h
  cases hcb : tx.isCoinBase with
  | true =>
    rw [if_pos hcb] at h
    obtain ⟨-, rfl⟩ := Prod.mk.inj h
    rw [hbefore] at hafter
    cases hafter
  | false =>
    refine ⟨hcb, ?_⟩
    rw [if_neg (by simp [hcb])] at h
    cases hin : checkTxInputs view tx nSpendHeight with
    | error f =>
      rw [hin] at h
      cases h
    | ok view' => exact ⟨view', rfl⟩

lemma checkInputs_of_hit {scriptExecutionCache : Uint256 → Bool} (hcb : tx.isCoinBase = false)
    {view' : CCoinsViewCache} (hin : checkTxInputs view tx nSpendHeight = .ok view')
    (hhit : scriptExecutionCache (hashCacheEntry nonce tx flags) = true) (cacheFullScriptStore : Bool)
    (txdata : PrecomputedTransactionData) (pvChecks : Bool) :
    checkInputs pubKeyVerify verifyScript nonce scriptExecutionCache tx view nSpendHeight true flags
      cacheFullScriptStore txdata pvChecks = (.ok (view', []), scriptExecutionCache) := by
  unfold checkInputs
  rw [if_neg (by simp [hcb]), hin]
  dsimp only
  rw [if_neg (by simp), if_pos hhit]

lemma checkInputs_fst_eq {fScriptChecks : Bool}
    (hnot : fScriptChecks = true → ¬ ReachesScripts view tx nSpendHeight) (cache cache' : Uint256 → Bool)
    (cacheFullScriptStore : Bool) (txdata : PrecomputedTransactionData) (pvChecks : Bool) :
    (checkInputs pubKeyVerify verifyScript nonce cache tx view nSpendHeight fScriptChecks flags
      cacheFullScriptStore txdata pvChecks).1 =
    (checkInputs pubKeyVerify verifyScript nonce cache' tx view nSpendHeight fScriptChecks flags
      cacheFullScriptStore txdata pvChecks).1 := by
  unfold checkInputs
  by_cases hcb : tx.isCoinBase = true
  · rw [if_pos hcb, if_pos hcb]
  · rw [if_neg hcb, if_neg hcb]
    cases hin : checkTxInputs view tx nSpendHeight with
    | error f => rfl
    | ok view' =>
      cases fScriptChecks with
      | false => rfl
      | true => exact absurd ⟨Bool.eq_false_of_not_eq_true hcb, view', hin⟩ (hnot rfl)

lemma checkInputs_store (hcb : tx.isCoinBase = false) {view' : CCoinsViewCache}
    (hin : checkTxInputs view tx nSpendHeight = .ok view')
    (hpass : ScriptsPass pubKeyVerify verifyScript view tx flags) :
    checkInputs pubKeyVerify verifyScript nonce (fun _ => false) tx view nSpendHeight true flags true
      (precomputedTransactionData sha256 tx.toCMutableTransaction) false =
      (.ok (view', []), Function.update (fun _ => false) (hashCacheEntry nonce tx flags) true) := by
  obtain ⟨hhave, rfl⟩ := checkTxInputs_eq_ok hin
  unfold checkInputs
  rw [if_neg (by simp [hcb]), hin]
  dsimp only
  rw [if_neg (by simp), if_neg Bool.false_ne_true,
    (checkScripts_run hhave _ _).mpr ⟨scriptsPass_iff.mp hpass, rfl⟩]
  rfl

lemma hashCacheEntry_congr (hw : tx₂.witnessHash = tx₁.witnessHash) :
    hashCacheEntry nonce tx₂ flags = hashCacheEntry nonce tx₁ flags := by
  unfold hashCacheEntry
  rw [hw]

lemma scriptsPass_of_subset
    (hsub : ∀ input ∈ scriptInputs pubKeyVerify view tx₂, input ∈ scriptInputs pubKeyVerify view tx₁)
    (hpass : ScriptsPass pubKeyVerify verifyScript view tx₁ flags) :
    ScriptsPass pubKeyVerify verifyScript view tx₂ flags := by
  intro input hinput
  exact hpass input (hsub input hinput)

lemma scriptsPass_of_cacheSound (hw : tx₂.witnessHash = tx₁.witnessHash)
    (hsound : CacheSound pubKeyVerify verifyScript nonce view nSpendHeight flags tx₁ tx₂)
    (h₁ : ReachesScripts view tx₁ nSpendHeight) (h₂ : ReachesScripts view tx₂ nSpendHeight)
    (hpass : ScriptsPass pubKeyVerify verifyScript view tx₁ flags) :
    ScriptsPass pubKeyVerify verifyScript view tx₂ flags := by
  obtain ⟨hcb₁, view₁, hin₁⟩ := h₁
  obtain ⟨hcb₂, view₂, hin₂⟩ := h₂
  have hstored := Function.update_self (hashCacheEntry nonce tx₁ flags) true (fun _ => false)
  have hverdict := hsound _ _ _ rfl (checkInputs_store hcb₁ hin₁ hpass) hstored true false false
  rw [checkInputs_of_hit hcb₂ hin₂ ((hashCacheEntry_congr hw).symm ▸ hstored)] at hverdict
  obtain ⟨r, hrun, -⟩ := bind_eq_ok_iff.mp hverdict.symm
  exact scriptsPass_of_checkInputs hcb₂ hin₂ rfl hrun

/-- Whatever the interpreter is: the cache is sound exactly if every script of the second transaction
is one that the first transaction has too, given the same. -/
theorem cacheSound_iff (pubKeyVerify : Bytes → Uint256 → Bytes → Bool) (nonce : Uint256)
    (view : CCoinsViewCache) (nSpendHeight : ℕ) (flags : UInt32) (tx₁ tx₂ : CTransaction sha256)
    (hw : tx₂.witnessHash = tx₁.witnessHash) :
    (∀ verifyScript, CacheSound pubKeyVerify verifyScript nonce view nSpendHeight flags tx₁ tx₂) ↔
      (ReachesScripts view tx₁ nSpendHeight → ReachesScripts view tx₂ nSpendHeight →
        ∀ input ∈ scriptInputs pubKeyVerify view tx₂, input ∈ scriptInputs pubKeyVerify view tx₁) := by
  constructor
  · intro hsound h₁ h₂
    -- an interpreter that accepts the scripts of the first transaction and no others
    classical
    let verifyScript : VerifyScript := fun input _ =>
      if input ∈ scriptInputs pubKeyVerify view tx₁ then .ok none else .ok (some "")
    have hpass : ScriptsPass pubKeyVerify verifyScript view tx₁ flags := fun input hinput => if_pos hinput
    have hpass₂ := scriptsPass_of_cacheSound hw (hsound verifyScript) h₁ h₂ hpass
    intro input hinput
    by_contra hnot
    have hfail : verifyScript input flags = .ok (some "") := if_neg hnot
    rw [hpass₂ input hinput] at hfail
    cases hfail
  · intro hsub verifyScript before after r hbefore hrun hafter fScriptChecks cacheFullScriptStore pvChecks
    by_cases hreach₂ : fScriptChecks = true ∧ ReachesScripts view tx₂ nSpendHeight
    · obtain ⟨rfl, hcb₂, view₂, hin₂⟩ := id hreach₂
      have hreach₁ := reachesScripts_of_stored hbefore hrun hafter
      obtain ⟨hcb₁, view₁, hin₁⟩ := id hreach₁
      have hpass := scriptsPass_of_checkInputs hcb₁ hin₁ hbefore (congrArg Prod.fst hrun)
      have hpass₂ := scriptsPass_of_subset (hsub hreach₁ hreach₂.2) hpass
      rw [checkInputs_of_hit hcb₂ hin₂ ((hashCacheEntry_congr hw).symm ▸ hafter),
        inputsVerdict_of_pass hcb₂ hin₂ _ _ hpass₂]
      rfl
    · rw [checkInputs_fst_eq (fun hf hr => hreach₂ ⟨hf, hr⟩)]

end Soundness

section Colliding

variable {sha256 : Bytes → Uint256}

lemma checkSig_clearValue (pubKeyVerify : Bytes → Uint256 → Bytes → Bool) (tx : CMutableTransaction)
    (nIn : ℕ) (amount : CAmount) :
    checkSig sha256 pubKeyVerify tx.clearValue nIn amount (precomputedTransactionData sha256 tx.clearValue) =
      checkSig sha256 pubKeyVerify tx nIn amount (precomputedTransactionData sha256 tx) := by
  funext vchSigIn vchPubKey scriptCode sigversion
  rfl

lemma scriptInputs_eq_clearValue (pubKeyVerify : Bytes → Uint256 → Bytes → Bool) (view : CCoinsViewCache)
    (tx : CTransaction sha256) :
    scriptInputs pubKeyVerify view tx =
      (List.finRange tx.clearValue.vin.length).map (fun i =>
        let txin := tx.clearValue.vin.get i
        let out := (view.accessCoin txin.prevout).out
        ⟨txin.scriptSig, out.scriptPubKey, txin.scriptWitness,
          transactionSignatureChecker sha256 pubKeyVerify tx.clearValue i out.nValue
            (precomputedTransactionData sha256 tx.clearValue)⟩) := by
  unfold scriptInputs transactionSignatureChecker
  simp only [checkSig_clearValue]
  rfl

lemma scriptInputs_congr {tx₁ tx₂ : CTransaction sha256} (h : tx₂.clearValue = tx₁.clearValue)
    (pubKeyVerify : Bytes → Uint256 → Bytes → Bool) (view : CCoinsViewCache) :
    scriptInputs pubKeyVerify view tx₂ = scriptInputs pubKeyVerify view tx₁ := by
  rw [scriptInputs_eq_clearValue, scriptInputs_eq_clearValue, h]

lemma witnessHash_eq_valueHash (tx : CTransaction sha256) :
    tx.witnessHash = valueHash sha256 (idValue sha256 tx.toCMutableTransaction) := by
  apply Option.some_inj.mp
  unfold CTransaction.witnessHash
  rw [Option.some_get, getWitnessHash_eq tx.lt_q.1 tx.lt_q.2]

lemma collideId_randomnessBelow {h : ℤ} (hh : 0 ≤ h ∧ h < cChamHash.q) {tx : CMutableTransaction}
    (htx : tx.RandomnessBelow) : (collideId sha256 h tx).RandomnessBelow := by
  obtain ⟨hr, hs⟩ := collisionBlobs_lt hh (serializeHash sha256 tx SER_GETHASH PROTOCOL_VERSION)
  exact ⟨hr, hs, htx.rscriptSig, htx.sscriptSig⟩

variable (tx : CTransaction sha256) (other : CMutableTransaction)

/-- The contents of `other` under randomness that gives them the witness hash of `tx`. -/
def collidingTransaction (h : tx.RandomnessBelow) (hother : other.RandomnessBelow) : CTransaction sha256 :=
  makeTransaction sha256 (collideId sha256 (idValue sha256 tx.toCMutableTransaction) other)
    (collideId_randomnessBelow (idValue_bounds sha256 h) hother)

lemma clearValue_collidingTransaction (h : tx.RandomnessBelow) (hother : other.RandomnessBelow) :
    (collidingTransaction tx other h hother).clearValue = other.clearValue := by
  unfold collidingTransaction makeTransaction collideId CMutableTransaction.clearValue
  rfl

lemma witnessHash_collidingTransaction (h : tx.RandomnessBelow) (hother : other.RandomnessBelow) :
    (collidingTransaction tx other h hother).witnessHash = tx.witnessHash := by
  have hid : idValue sha256 (collideId sha256 (idValue sha256 tx.toCMutableTransaction) other) =
      idValue sha256 tx.toCMutableTransaction := by
    rw [idValue, serializeHash_collideId]
    exact chamValue_collisionBlobs (idValue_bounds sha256 h) _
  rw [witnessHash_eq_valueHash, witnessHash_eq_valueHash]
  exact congrArg (valueHash sha256) hid

end Colliding

section Twin

lemma plainTransaction_randomnessBelow (vin : List CTxIn) (vout : List CTxOut) :
    (plainTransaction vin vout).RandomnessBelow := ⟨null_lt, null_lt, null_lt, null_lt⟩

lemma firstTwin_randomnessBelow : firstTwin.RandomnessBelow := plainTransaction_randomnessBelow _ _

/-- `firstTwin` with another script in its input. -/
def rescriptedTwin (scriptSig : CScript) : CTransaction cSHA256 :=
  collidingTransaction firstTwin
    (plainTransaction [⟨fundingOutpoint, scriptSig, SEQUENCE_FINAL, []⟩] [⟨5000000000, [0x51]⟩])
    firstTwin_randomnessBelow (plainTransaction_randomnessBelow _ _)

lemma witnessHash_rescriptedTwin (scriptSig : CScript) :
    (rescriptedTwin scriptSig).witnessHash = firstTwin.witnessHash :=
  witnessHash_collidingTransaction _ _ _ _

lemma eq_of_mem_scriptInputs {pubKeyVerify : Bytes → Uint256 → Bytes → Bool} {scriptSig : CScript}
    {input : ScriptInput} (h : input ∈ scriptInputs pubKeyVerify twinView (rescriptedTwin scriptSig)) :
    input = ⟨scriptSig, [Opcode.OP_1], [], input.checker⟩ := by
  obtain ⟨i, -, rfl⟩ := mem_map.mp h
  obtain rfl : i = ⟨0, Nat.zero_lt_one⟩ := Fin.ext (Nat.lt_one_iff.mp i.isLt)
  have hcoin : twinView.accessCoin fundingOutpoint = fundingCoin := by decide +kernel
  exact congrArg (fun coin : Coin => (⟨scriptSig, coin.out.scriptPubKey, [], _⟩ : ScriptInput)) hcoin

lemma scriptInputs_rescriptedTwin_nil (pubKeyVerify : Bytes → Uint256 → Bytes → Bool) (view : CCoinsViewCache) :
    scriptInputs pubKeyVerify view (rescriptedTwin []) = scriptInputs pubKeyVerify view firstTwin := by
  apply scriptInputs_congr
  unfold rescriptedTwin
  rw [clearValue_collidingTransaction]
  rfl

theorem cacheSound_iff_rescriptedTwin :
    (rescriptedTwin []).witnessHash = firstTwin.witnessHash ∧
    ∀ verifyScript, CacheSound (fun _ _ _ => false) verifyScript (BaseBlob.null 32) twinView 1
      SCRIPT_VERIFY_P2SH firstTwin (rescriptedTwin []) := by
  refine ⟨witnessHash_rescriptedTwin [], ?_⟩
  refine (cacheSound_iff (fun _ _ _ => false) (BaseBlob.null 32) twinView 1 SCRIPT_VERIFY_P2SH firstTwin
    (rescriptedTwin []) (witnessHash_rescriptedTwin [])).mpr ?_
  intro _ _ input hinput
  rwa [scriptInputs_rescriptedTwin_nil] at hinput

lemma reachesScripts_of_isOk {sha256 : Bytes → Uint256} {view : CCoinsViewCache} {tx : CTransaction sha256}
    {nSpendHeight : ℕ} (hcb : tx.isCoinBase = false)
    (h : (checkTxInputs view tx nSpendHeight).isOk = true) : ReachesScripts view tx nSpendHeight := by
  refine ⟨hcb, ?_⟩
  cases hin : checkTxInputs view tx nSpendHeight with
  | ok view' => exact ⟨view', rfl⟩
  | error f =>
    rw [hin] at h
    cases h

/-- The answers of `VerifyScript` to the scripts of the twins: the output script pushes 1, and an
`OP_RETURN` in the input script ends the evaluation. -/
structure AnswersTwins (verifyScript : VerifyScript) : Prop where
  push : ∀ checker, verifyScript ⟨[], [Opcode.OP_1], [], checker⟩ SCRIPT_VERIFY_P2SH = .ok none
  opReturn : ∀ checker, verifyScript ⟨[Opcode.OP_RETURN], [Opcode.OP_1], [], checker⟩ SCRIPT_VERIFY_P2SH =
    .ok (some "OP_RETURN was encountered")

lemma exists_answersTwins : ∃ verifyScript, AnswersTwins verifyScript :=
  ⟨fun input _ => .ok (if input.scriptSig = [] then none else some "OP_RETURN was encountered"),
    fun _ => rfl, fun _ => rfl⟩

theorem cache_accepts_opReturn :
    firstTwin.RandomnessBelow ∧ (rescriptedTwin [Opcode.OP_RETURN]).RandomnessBelow ∧
    (rescriptedTwin [Opcode.OP_RETURN]).witnessHash = firstTwin.witnessHash ∧
    (∃ verifyScript, AnswersTwins verifyScript) ∧ ∀ verifyScript, AnswersTwins verifyScript →
      ¬ CacheSound (fun _ _ _ => false) verifyScript (BaseBlob.null 32) twinView 1 SCRIPT_VERIFY_P2SH
        firstTwin (rescriptedTwin [Opcode.OP_RETURN]) := by
  refine ⟨firstTwin_randomnessBelow, ?_, witnessHash_rescriptedTwin _, exists_answersTwins, ?_⟩
  · exact collideId_randomnessBelow (idValue_bounds _ firstTwin_randomnessBelow)
      (plainTransaction_randomnessBelow _ _)
  · intro verifyScript hanswers hsound
    have h₁ : ReachesScripts twinView firstTwin 1 := reachesScripts_of_isOk rfl (by decide +kernel)
    have h₂ : ReachesScripts twinView (rescriptedTwin [Opcode.OP_RETURN]) 1 :=
      reachesScripts_of_isOk rfl (by decide +kernel)
    have hpass : ScriptsPass (fun _ _ _ => false) verifyScript twinView firstTwin SCRIPT_VERIFY_P2SH := by
      intro input hinput
      rw [← scriptInputs_rescriptedTwin_nil] at hinput
      rw [eq_of_mem_scriptInputs hinput]
      exact hanswers.push _
    have hpass₂ := scriptsPass_of_cacheSound (witnessHash_rescriptedTwin _) hsound h₁ h₂ hpass
    have hmem : (scriptCheck twinView (rescriptedTwin [Opcode.OP_RETURN]) 0
        (precomputedTransactionData cSHA256 (rescriptedTwin [Opcode.OP_RETURN]).toCMutableTransaction)
        ⟨0, Nat.zero_lt_one⟩).scriptInput (fun _ _ _ => false) ∈
        scriptInputs (fun _ _ _ => false) twinView (rescriptedTwin [Opcode.OP_RETURN]) :=
      mem_map_of_mem (mem_finRange _)
    have hfail := hpass₂ _ hmem
    rw [eq_of_mem_scriptInputs hmem, hanswers.opReturn] at hfail
    cases hfail

end Twin

end MutableBitcoin
