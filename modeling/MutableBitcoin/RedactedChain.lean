import MutableBitcoin.RewrittenBlock
import MutableBitcoin.SupplyCap
import MutableBitcoin.UndoneBlock
import MutableBitcoin.VerifyScript

/-!
# Syncing from redacted blocks

A redaction replaces an output that is never stored, and what a legacy signature signs is kept. So
the transactions of redacted blocks connect as the original ones do.
-/

namespace MutableBitcoin
open Lib List

section Checkers

variable {crypto : ScriptCrypto} {flags : UInt32} {checker checker' : SignatureChecker} {sigversion : SigVersion}

/-- The checker that takes every signature for one of the given version. -/
def SignatureChecker.ofVersion (checker : SignatureChecker) (sigversion : SigVersion) : SignatureChecker :=
  { checker with
    checkSig := fun vchSig vchPubKey scriptCode _ => checker.checkSig vchSig vchPubKey scriptCode sigversion }

lemma multisigLoop_ofVersion (scriptCode : CScript) (nKeysCount ikey nSigsCount isig : ℕ) :
    multisigLoop crypto flags (checker.ofVersion sigversion) sigversion scriptCode nKeysCount ikey nSigsCount isig =
      multisigLoop crypto flags checker sigversion scriptCode nKeysCount ikey nSigsCount isig := by
  induction nKeysCount generalizing ikey nSigsCount isig with
  | zero => rfl
  | succ nKeysCount ih =>
    have hcall : callCheckSig (checker.ofVersion sigversion) sigversion = callCheckSig checker sigversion := rfl
    simp only [multisigLoop, ih, hcall]

lemma evalSwitch_ofVersion (fExec : Bool) (r : CScript.GetOpResult) :
    evalSwitch crypto flags (checker.ofVersion sigversion) sigversion fExec r =
      evalSwitch crypto flags checker sigversion fExec r := by
  unfold evalSwitch
  cases switchLabel r.opcodeRet with
  | none => rfl
  | some label =>
    cases label with
    | plain block => cases block <;> rfl
    | checkSig => rfl
    | checkMultisig => simp only [evalCheckMultisig, multisigLoop_ofVersion]

lemma evalScript_ofVersion (stack : List Bytes) (script : CScript) :
    evalScript crypto flags (checker.ofVersion sigversion) sigversion stack script =
      evalScript crypto flags checker sigversion stack script := by
  have hop : evalOp crypto flags (checker.ofVersion sigversion) sigversion = evalOp crypto flags checker sigversion := by
    funext r
    simp only [evalOp, execute, evalSwitch_ofVersion]
  unfold evalScript evalOps
  rw [hop]

lemma evalScript_congr (h : checker.ofVersion sigversion = checker'.ofVersion sigversion) (stack : List Bytes)
    (script : CScript) :
    evalScript crypto flags checker sigversion stack script =
      evalScript crypto flags checker' sigversion stack script := by
  rw [← evalScript_ofVersion, h, evalScript_ofVersion]

variable (checker checker')

/-- Without a witness no script of version 0 is run. -/
lemma verifyWitnessProgram_nil (witversion : ℕ) (program : Bytes) :
    verifyWitnessProgram crypto flags checker [] witversion program =
      verifyWitnessProgram crypto flags checker' [] witversion program := by
  have hfails : ∃ e, witnessScript crypto [] program = .error e := by
    unfold witnessScript
    split_ifs
    · exact ⟨_, rfl⟩
    · exact absurd ‹_› (by decide)
    · exact ⟨_, rfl⟩
    · exact ⟨_, rfl⟩
  obtain ⟨e, hfails⟩ := hfails
  unfold verifyWitnessProgram
  rw [hfails]
  rfl

lemma verifyProgramOf_nil (script : CScript) (fMalleated : Bool) (eMalleated : ScriptError) (stack : List Bytes) :
    verifyProgramOf crypto flags checker script [] fMalleated eMalleated stack =
      verifyProgramOf crypto flags checker' script [] fMalleated eMalleated stack := by
  unfold verifyProgramOf
  cases CScript.isWitnessProgram script with
  | none => rfl
  | some program =>
    dsimp only
    rw [verifyWitnessProgram_nil checker checker']

variable {checker checker'}

lemma verifyScript_congr (h : checker.ofVersion .SIGVERSION_BASE = checker'.ofVersion .SIGVERSION_BASE)
    (scriptSig scriptPubKey : CScript) :
    verifyScript crypto flags checker scriptSig scriptPubKey [] =
      verifyScript crypto flags checker' scriptSig scriptPubKey [] := by
  have hprograms : ∀ stackCopy stack, verifyPrograms crypto flags checker scriptSig scriptPubKey [] stackCopy stack =
      verifyPrograms crypto flags checker' scriptSig scriptPubKey [] stackCopy stack := by
    intro stackCopy stack
    unfold verifyPrograms verifyRedeemScript
    simp only [evalScript_congr h, verifyProgramOf_nil checker checker']
  simp only [verifyScript, verifyScriptRun, evalScript_congr h, hprograms]

end Checkers

section Scripts

variable {sha256 : Bytes → Uint256} {op : RedactOp} {oldTX newTX : CTransaction sha256} {k : ℕ} {txout : CTxOut}

/-- The script check of one input, by a checker for the transaction. -/
def inputReject (crypto : ScriptCrypto) (flags : UInt32) (pubKeyVerify : Bytes → Uint256 → Bytes → Bool)
    (report : Interrupt → Reject) (tx : CTransaction sha256) (coins : List Coin) (nIn : ℕ) : Option Reject :=
  if h : nIn < tx.vin.length then
    let coin := coins.getD nIn Coin.empty
    let checker := transactionSignatureChecker sha256 pubKeyVerify tx.toCMutableTransaction ⟨nIn, h⟩ coin.out.nValue
      (precomputedTransactionData sha256 tx.toCMutableTransaction)
    let txin := tx.vin[nIn]
    match (verifyScript crypto flags checker txin.scriptSig coin.out.scriptPubKey txin.scriptWitness).result with
    | .ok _ => none
    | .error e => some (report e)
  else none

/-- The script checks of `CheckInputs`, up to the first that fails. -/
def scriptsReject (crypto : ScriptCrypto) (flags : UInt32) (pubKeyVerify : Bytes → Uint256 → Bytes → Bool)
    (report : Interrupt → Reject) (tx : CTransaction sha256) (coins : List Coin) : Option Reject :=
  (List.range tx.vin.length).findSome? (inputReject crypto flags pubKeyVerify report tx coins)

lemma RedactsTo.ofVersion_eq (h : RedactsTo op oldTX newTX k txout) (pubKeyVerify : Bytes → Uint256 → Bytes → Bool)
    {nIn : ℕ} (hnew : nIn < newTX.vin.length) (hold : nIn < oldTX.vin.length) (amount : CAmount)
    (txdata txdata' : PrecomputedTransactionData) :
    (transactionSignatureChecker sha256 pubKeyVerify newTX.toCMutableTransaction ⟨nIn, hnew⟩ amount txdata').ofVersion
        .SIGVERSION_BASE =
      (transactionSignatureChecker sha256 pubKeyVerify oldTX.toCMutableTransaction ⟨nIn, hold⟩ amount txdata).ofVersion
        .SIGVERSION_BASE := by
  have hbelow : newTX.RandomnessBelow := by
    rw [h.eq]
    exact redactTo_randomnessBelow sha256 op k _ (idValue_bounds sha256 h.below) (outputsValue_bounds sha256 h.below)
  have hvalue : outputsValue sha256 newTX.toCMutableTransaction = outputsValue sha256 oldTX.toCMutableTransaction := by
    rw [h.eq, outputsValue_redactTo (outputsValue_bounds sha256 h.below)]
  have hsig : ∀ scriptCode nHashType,
      signatureHash sha256 scriptCode newTX.toCMutableTransaction nIn nHashType amount .SIGVERSION_BASE (some txdata') 0 =
        signatureHash sha256 scriptCode oldTX.toCMutableTransaction nIn nHashType amount .SIGVERSION_BASE (some txdata)
          0 := by
    intro scriptCode nHashType
    obtain ⟨digest, hdigest, hdigest'⟩ :=
      signatureHash_base_congr h.sameSkeleton hvalue hbelow h.below scriptCode nIn nHashType amount (some txdata)
    rw [hdigest', ← hdigest]
    rfl
  have hin : newTX.vin.get ⟨nIn, hnew⟩ = oldTX.vin.get ⟨nIn, hold⟩ := by
    simp only [get_eq_getElem, h.vin_eq]
  have hlock : checkLockTime newTX.toCMutableTransaction = checkLockTime oldTX.toCMutableTransaction := by
    unfold checkLockTime
    rw [h.nLockTime_eq]
  have hsequence : checkSequence newTX.toCMutableTransaction = checkSequence oldTX.toCMutableTransaction := by
    unfold checkSequence
    rw [h.sameSkeleton.nVersion]
  simp only [SignatureChecker.ofVersion, transactionSignatureChecker, checkSig, hsig, hin, hlock, hsequence]

/-- Scripts do not tell a redacted transaction from the old one, if that has no witness. -/
lemma RedactsTo.scriptsReject_eq (h : RedactsTo op oldTX newTX k txout) (hw : oldTX.hasWitness = false)
    (crypto : ScriptCrypto) (flags : UInt32) (pubKeyVerify : Bytes → Uint256 → Bytes → Bool) (report : Interrupt → Reject) :
    scriptsReject crypto flags pubKeyVerify report newTX = scriptsReject crypto flags pubKeyVerify report oldTX := by
  have hinput : ∀ coins, inputReject crypto flags pubKeyVerify report newTX coins =
      inputReject crypto flags pubKeyVerify report oldTX coins := by
    intro coins
    funext nIn
    unfold inputReject
    by_cases hold : nIn < oldTX.vin.length
    · have hnew : nIn < newTX.vin.length := by rwa [h.vin_eq]
      have hin : newTX.vin[nIn] = oldTX.vin[nIn] := by simp only [h.vin_eq]
      have hempty : oldTX.vin[nIn].scriptWitness = [] := by
        have hnone := any_eq_false.mp hw _ (getElem_mem hold)
        simpa using hnone
      rw [dif_pos hnew, dif_pos hold, hin]
      dsimp only
      rw [hempty, verifyScript_congr (h.ofVersion_eq pubKeyVerify hnew hold _ _ _)]
    · rw [dif_neg (by rwa [h.vin_eq]), dif_neg hold]
  funext coins
  rw [scriptsReject, scriptsReject, h.vin_eq, hinput]

end Scripts

section Blocks

variable {sha256 : Bytes → Uint256} {ctx : ConnectContext sha256} {oldTX newTX : CTransaction sha256}

/-- The scripts are run, and the sequence locks are read off the version and the inputs. -/
structure ConnectContext.RunsScripts (ctx : ConnectContext sha256) : Prop where
  scripts : ∃ crypto flags pubKeyVerify report, ctx.checkScripts = scriptsReject crypto flags pubKeyVerify report
  locks : ∀ tx tx' : CTransaction sha256, tx'.nVersion = tx.nVersion → tx'.vin = tx.vin →
    ctx.sequenceLocks tx' = ctx.sequenceLocks tx

/-- A redaction of a transaction without witness that `CheckTransaction` has passed. -/
def Redaction (oldTX newTX : CTransaction sha256) : Prop :=
  oldTX.hasWitness = false ∧ checkTransaction oldTX.toCMutableTransaction false = .ok () ∧
    ∃ op k txout, RedactsTo op oldTX newTX k txout

/-- What the loop of `ConnectBlock` can tell of two transactions. -/
structure StandsFor (ctx : ConnectContext sha256) (newTX oldTX : CTransaction sha256) : Prop where
  vin : newTX.vin = oldTX.vin
  values : newTX.vout.map (·.nValue) = oldTX.vout.map (·.nValue)
  addCoins : ∀ view : CCoinsViewCache, view.addCoins newTX.hash newTX.isCoinBase ctx.nHeight 0 newTX.vout =
    view.addCoins oldTX.hash oldTX.isCoinBase ctx.nHeight 0 oldTX.vout
  sigOps : getLegacySigOpCount newTX.toCMutableTransaction ≤ getLegacySigOpCount oldTX.toCMutableTransaction
  locks : ctx.sequenceLocks newTX = ctx.sequenceLocks oldTX
  scripts : ctx.checkScripts newTX = ctx.checkScripts oldTX

lemma StandsFor.refl (tx : CTransaction sha256) : StandsFor ctx tx tx := ⟨rfl, rfl, fun _ => rfl, le_rfl, rfl, rfl⟩

lemma StandsFor.trans {midTX : CTransaction sha256} (h : StandsFor ctx newTX midTX) (h' : StandsFor ctx midTX oldTX) :
    StandsFor ctx newTX oldTX :=
  ⟨h.vin.trans h'.vin, h.values.trans h'.values, fun view => (h.addCoins view).trans (h'.addCoins view),
    h.sigOps.trans h'.sigOps, h.locks.trans h'.locks, h.scripts.trans h'.scripts⟩

/-- An output that cannot be spent is not stored, whichever script it has. -/
lemma addCoins_setScriptPubKey {vout : List CTxOut} {k : ℕ} {txout : CTxOut} {script : CScript}
    (hk : vout[k]? = some txout) (hold : CScript.isUnspendable txout.scriptPubKey = true)
    (hnew : CScript.isUnspendable script = true) (txid : Uint256) (fCoinbase : Bool) (nHeight : ℕ)
    (view : CCoinsViewCache) (i : ℕ) :
    view.addCoins txid fCoinbase nHeight i (setScriptPubKey vout k script) =
      view.addCoins txid fCoinbase nHeight i vout := by
  induction vout generalizing view i k with
  | nil => simp at hk
  | cons first vout ih =>
    cases k with
    | zero =>
      obtain rfl : first = txout := Option.some.inj hk
      simp only [setScriptPubKey, modify_zero_cons, CCoinsViewCache.addCoins, CCoinsViewCache.addCoin, Coin.isSpent,
        CTxOut.isNull, hold, hnew, if_true]
    | succ k =>
      simp only [setScriptPubKey, modify_succ_cons, CCoinsViewCache.addCoins]
      congr 1
      funext view
      exact ih hk view (i + 1)

lemma standsFor_of_redaction (hctx : ctx.RunsScripts) (h : Redaction oldTX newTX) : StandsFor ctx newTX oldTX := by
  obtain ⟨hw, hchk, op, k, txout, h⟩ := h
  obtain ⟨crypto, flags, pubKeyVerify, report, hscripts⟩ := hctx.scripts
  refine ⟨h.vin_eq, h.values_eq, fun view => ?_, h.getLegacySigOpCount_le hchk,
    hctx.locks _ _ h.sameSkeleton.nVersion h.vin_eq, ?_⟩
  · rw [h.hash_eq_of_not_hasWitness hw, h.isCoinBase_eq, h.vout_eq]
    exact addCoins_setScriptPubKey h.output (isUnspendable_of_isOpReturn h.isOpReturn)
      (isUnspendable_of_isOpReturn (isOpReturn_redactedScript op _)) _ _ _ _ _
  · rw [hscripts]
    exact h.scriptsReject_eq hw crypto flags pubKeyVerify report

lemma standsFor_of_redactions (hctx : ctx.RunsScripts) (h : Relation.ReflTransGen Redaction oldTX newTX) :
    StandsFor ctx newTX oldTX := by
  induction h with
  | refl => exact .refl _
  | tail _ hlast ih => exact (standsFor_of_redaction hctx hlast).trans ih

/-- Everything but the count of signature operations, which may be smaller. -/
structure Alike (st' st : ConnectState) : Prop where
  view : st'.view = st.view
  nFees : st'.nFees = st.nFees
  vtxundo : st'.vtxundo = st.vtxundo
  sigOps : st'.nSigOpsCost ≤ st.nSigOpsCost

lemma getValueOut_congr {vout vout' : List CTxOut} (h : vout'.map (·.nValue) = vout.map (·.nValue)) (acc : CAmount) :
    getValueOut acc vout' = getValueOut acc vout := by
  induction vout generalizing vout' acc with
  | nil =>
    obtain rfl : vout' = [] := by simpa using h
    rfl
  | cons o vout ih =>
    cases vout' with
    | nil => simp at h
    | cons o' vout' =>
      simp only [map_cons, List.cons.injEq] at h
      simp only [getValueOut, h.1, ih h.2]

lemma StandsFor.isCoinBase (h : StandsFor ctx newTX oldTX) : newTX.isCoinBase = oldTX.isCoinBase := by
  unfold CMutableTransaction.isCoinBase
  rw [h.vin]

lemma StandsFor.getTransactionSigOpCost (h : StandsFor ctx newTX oldTX) {view : CCoinsViewCache}
    {after : CCoinsViewCache × ℕ} (hok : getTransactionSigOpCost ctx.flags view oldTX = .ok after) :
    ∃ nSigOps ≤ after.2, MutableBitcoin.getTransactionSigOpCost ctx.flags view newTX = .ok (after.1, nSigOps) := by
  have hle := Nat.mul_le_mul_right WITNESS_SCALE_FACTOR h.sigOps
  unfold MutableBitcoin.getTransactionSigOpCost at hok ⊢
  rw [h.isCoinBase, h.vin]
  cases hcb : oldTX.isCoinBase with
  | true =>
    rw [hcb] at hok
    obtain rfl := Except.ok.inj hok
    exact ⟨_, hle, rfl⟩
  | false =>
    rw [hcb] at hok
    simp only [Bool.false_eq_true, if_false, unit_bind_eq_ok_iff] at hok ⊢
    obtain ⟨hspent, hflags, hok⟩ := hok
    obtain rfl := Except.ok.inj hok
    exact ⟨_, Nat.add_le_add_right (Nat.add_le_add_right hle _) _, hspent, hflags, rfl⟩

/-- One transaction. -/
lemma StandsFor.connectTransaction (h : StandsFor ctx newTX oldTX) {st st' after : ConnectState}
    (hst : Alike st' st) (hok : connectTransaction ctx st oldTX = .ok after) :
    ∃ after', MutableBitcoin.connectTransaction ctx st' newTX = .ok after' ∧ Alike after' after := by
  have hlocks : ∀ view, checkLocks ctx view newTX = checkLocks ctx view oldTX := by
    intro view
    unfold checkLocks
    rw [h.vin, h.locks]
  have hfee : ∀ view nFees, checkFee ctx view newTX nFees = checkFee ctx view oldTX nFees := by
    intro view nFees
    simp only [checkFee, checkTxInputs, h.vin, h.scripts, getValueOut_congr h.values]
  have hupdate : ∀ view, updateCoins view newTX ctx.nHeight = updateCoins view oldTX ctx.nHeight := by
    intro view
    unfold updateCoins
    simp only [h.addCoins]
    rw [h.isCoinBase, h.vin]
  unfold MutableBitcoin.connectTransaction checkConnect at hok ⊢
  simp only [h.isCoinBase, hlocks, hfee, hupdate, hst.view, hst.nFees, hst.vtxundo, bind_eq_ok_iff,
    failIf_eq_ok_iff, decide_eq_false_iff_not, not_lt] at hok ⊢
  obtain ⟨checked, ⟨view, hview, counted, hcount, -, hcost, ⟨view', nFees⟩, hfees, hchecked⟩, updated, hupdated, hok⟩ :=
    hok
  obtain ⟨nSigOps, hle, hcount'⟩ := h.getTransactionSigOpCost hcount
  obtain rfl := Except.ok.inj hchecked
  obtain rfl := Except.ok.inj hok
  have hsum : st'.nSigOpsCost + nSigOps ≤ st.nSigOpsCost + counted.2 := Nat.add_le_add hst.sigOps hle
  exact ⟨_, ⟨_, ⟨view, hview, (counted.1, nSigOps), hcount', (), hsum.trans hcost, (view', nFees), hfees, rfl⟩,
    updated, hupdated, rfl⟩, rfl, rfl, rfl, hsum⟩

lemma connectTransactions_standsFor {vtx vtx' : List (CTransaction sha256)}
    (h : List.Forall₂ (fun oldTX newTX => StandsFor ctx newTX oldTX) vtx vtx') {st st' after : ConnectState}
    (hst : Alike st' st) (hok : connectTransactions ctx st vtx = .ok after) :
    ∃ after', connectTransactions ctx st' vtx' = .ok after' ∧ Alike after' after := by
  unfold connectTransactions at hok ⊢
  induction h generalizing st st' with
  | nil =>
    obtain rfl := Except.ok.inj hok
    exact ⟨st', rfl, hst⟩
  | cons hhead _ ih =>
    rw [foldlM_cons, bind_eq_ok_iff] at hok
    obtain ⟨next, hnext, hok⟩ := hok
    obtain ⟨next', hnext', hst'⟩ := hhead.connectTransaction hst hnext
    rw [foldlM_cons, hnext', ok_bind]
    exact ih hst' hok

/-- Transaction by transaction, the second block is the first one after some redactions. -/
def RedactedBlock (block block' : CBlock sha256) : Prop :=
  List.Forall₂ (Relation.ReflTransGen Redaction) block.vtx block'.vtx

lemma connectBlock_redacted (hctx : ctx.RunsScripts) {block block' : CBlock sha256} (h : RedactedBlock block block')
    {params : ConsensusParams} {view : CCoinsViewCache} {after : ConnectState}
    (hok : connectBlock ctx params view block = .ok after) :
    ∃ after', connectBlock ctx params view block' = .ok after' ∧ Alike after' after := by
  have hstands := List.Forall₂.imp (fun _ _ hredacted => standsFor_of_redactions hctx hredacted) h
  have hout : getValueOut 0 ((block'.vtx.head?.map (·.vout)).getD []) =
      getValueOut 0 ((block.vtx.head?.map (·.vout)).getD []) := by
    generalize block.vtx = vtx, block'.vtx = vtx' at hstands
    cases hstands with
    | nil => rfl
    | cons hhead _ => exact getValueOut_congr hhead.values 0
  unfold connectBlock at hok ⊢
  rw [bind_eq_ok_iff] at hok
  obtain ⟨st, hst, hok⟩ := hok
  obtain ⟨st', hst', halike⟩ := connectTransactions_standsFor hstands ⟨rfl, rfl, rfl, le_rfl⟩ hst
  rw [hst', ok_bind]
  dsimp only at hok ⊢
  simp only [hout, halike.nFees, bind_eq_ok_iff] at hok ⊢
  obtain ⟨coinbaseOut, hcoinbase, paid, hpaid, hok⟩ := hok
  obtain rfl := Except.ok.inj hok
  exact ⟨st', ⟨coinbaseOut, hcoinbase, paid, hpaid, rfl⟩, halike⟩

/-- The transactions of blocks connected one after the other, each over the coins that the last one left. -/
def connectChain (params : ConsensusParams) (base : COutPoint → Option Coin)
    (blocks : List (ConnectContext sha256 × CBlock sha256)) : Except Failure (COutPoint → Option Coin) :=
  blocks.foldlM (fun base connected => do
    let st ← connectBlock connected.1 params (coinsTip base) connected.2
    return st.view.flushed) base

/-- Where the transactions of a chain of blocks have connected, those of the redacted blocks connect too, and they
leave the same coins. -/
theorem redacted_chain_same_coins {params : ConsensusParams} {base coins : COutPoint → Option Coin}
    {blocks blocks' : List (ConnectContext sha256 × CBlock sha256)}
    (hctx : ∀ connected ∈ blocks, connected.1.RunsScripts)
    (hredacted : List.Forall₂ (fun connected connected' => connected'.1 = connected.1 ∧
      RedactedBlock connected.2 connected'.2) blocks blocks')
    (hok : connectChain params base blocks = .ok coins) : connectChain params base blocks' = .ok coins := by
  unfold connectChain at hok ⊢
  induction hredacted generalizing base with
  | nil => exact hok
  | @cons connected connected' blocks blocks' hhead _ ih =>
    obtain ⟨ctx', block'⟩ := connected'
    obtain ⟨hsame, hhead⟩ := hhead
    dsimp only at hsame hhead
    subst hsame
    rw [foldlM_cons, bind_eq_ok_iff] at hok
    obtain ⟨next, hnext, hok⟩ := hok
    rw [bind_eq_ok_iff] at hnext
    obtain ⟨st, hst, hnext⟩ := hnext
    obtain ⟨st', hst', halike⟩ := connectBlock_redacted (hctx _ mem_cons_self) hhead hst
    obtain rfl := Except.ok.inj hnext
    rw [foldlM_cons]
    dsimp only
    rw [hst', ok_bind]
    have hview : (pure st'.view.flushed : Except Failure (COutPoint → Option Coin)) = .ok st.view.flushed := by
      rw [halike.view]
      rfl
    rw [hview, ok_bind]
    exact ih (fun connected hmem => hctx connected (mem_cons_of_mem _ hmem)) hok

end Blocks

section DataBlock

/-- A context in which the scripts are run without flags, and no signature is valid. -/
def scriptedContext : ConnectContext cSHA256 where
  nHeight := 1
  flags := ⟨true, true⟩
  sequenceLocks _ _ := true
  checkScripts := scriptsReject sha256Only 0 (fun _ _ _ => false) (fun _ => ⟨100, "block-validation-failed", false⟩)

/-- Every outpoint has a coin without value that anyone can spend. -/
def openCoins : COutPoint → Option Coin := fun _ => some ⟨⟨0, [Opcode.OP_1]⟩, false, 0⟩

lemma redaction_dataTransactionRef : Redaction (dataTransactionRef dataScript) (redactedData .hide dataScript) := by
  obtain ⟨u, hcheck⟩ := exists_ok_of_isOk
    (show (checkTransaction (dataTransactionRef dataScript).toCMutableTransaction false).isOk = true by decide +kernel)
  exact ⟨rfl, hcheck, .hide, 0, ⟨0, dataScript⟩, rfl, rfl, redact_dataTransactionRef .hide rfl⟩

/-- A block with one transaction, whose data are hidden. -/
theorem redacted_chain_same_coins_dataBlock :
    ∃ coins, connectChain regtest openCoins [(scriptedContext, dataBlock dataScript)] = .ok coins ∧
      connectChain regtest openCoins
        [(scriptedContext, (dataBlock dataScript).rewrite 0 (redactedData .hide dataScript))] = .ok coins := by
  obtain ⟨coins, hcoins⟩ := exists_ok_of_isOk
    (show (connectChain regtest openCoins [(scriptedContext, dataBlock dataScript)]).isOk = true by decide +kernel)
  have hctx : scriptedContext.RunsScripts := ⟨⟨_, _, _, _, rfl⟩, fun _ _ _ _ => rfl⟩
  have hredacted : RedactedBlock (dataBlock dataScript)
      ((dataBlock dataScript).rewrite 0 (redactedData .hide dataScript)) :=
    List.Forall₂.cons (Relation.ReflTransGen.single redaction_dataTransactionRef) List.Forall₂.nil
  refine ⟨coins, hcoins, ?_⟩
  refine redacted_chain_same_coins ?_ (List.Forall₂.cons ?_ List.Forall₂.nil) hcoins
  · intro connected hmem
    rw [mem_singleton.mp hmem]
    exact hctx
  · exact ⟨rfl, hredacted⟩

end DataBlock

end MutableBitcoin
