import MutableBitcoin.Interpreter

/-!
# Verification of a script pair

`VerifyWitnessProgram`, `VerifyScript` and `CountWitnessSigOps` of `interpreter.cpp`: up to four
evaluations, of the `scriptSig`, the `scriptPubKey`, the redeem script of a script hash and the
witness script. A null pointer to a witness is an empty witness.
-/

namespace MutableBitcoin
open Lib Opcode ScriptError Permits Bool

/-- How `VerifyScript` ends, and how often it has called `checker.CheckSig`. -/
structure ScriptOutcome where
  result : Except Interrupt Unit
  nCheckSig : ℕ

lemma isWitnessProgram_of_isPayToScriptHash {script : CScript}
    (h : CScript.isPayToScriptHash script = true) : CScript.isWitnessProgram script = none := by
  unfold CScript.isPayToScriptHash at h
  simp only [and_eq_true, beq_iff_eq] at h
  obtain ⟨⟨⟨-, hop⟩, -⟩, -⟩ := h
  match script, hop with
  | [_], _ => rfl
  | op :: size :: program, hop =>
    obtain rfl : op = OP_HASH160 := by simpa using hop
    have hop : OP_HASH160 ≠ OP_0 ∧ (OP_HASH160 < OP_1 ∨ OP_16 < OP_HASH160) := by decide
    unfold CScript.isWitnessProgram
    dsimp only
    rw [if_pos hop, ite_self]

section VerifyScript

variable (crypto : ScriptCrypto) (flags : UInt32) (checker : SignatureChecker)

def requireTrue (stack : List Bytes) : EStateM Interrupt ℕ Unit :=
  match stack.getLast? with
  | none => throw (.returned SCRIPT_ERR_EVAL_FALSE)
  | some back => scriptErrorIf (!castToBool back) SCRIPT_ERR_EVAL_FALSE

/-- `CScript() << OP_DUP << OP_HASH160 << program << OP_EQUALVERIFY << OP_CHECKSIG`. -/
def payToPubKeyHash (program : Bytes) : CScript :=
  CScript.pushData [OP_DUP, OP_HASH160] program ++ [OP_EQUALVERIFY, OP_CHECKSIG]

/-- The stack and the script a witness program runs. -/
def witnessScript (witness : List Bytes) (program : Bytes) : Except ScriptError (List Bytes × CScript) :=
  if program.length = 32 then
    match witness.getLast? with
    | none => .error SCRIPT_ERR_WITNESS_PROGRAM_WITNESS_EMPTY
    | some scriptPubKey =>
      if (crypto.sha256 scriptPubKey).data = program then .ok (witness.dropLast, scriptPubKey)
      else .error SCRIPT_ERR_WITNESS_PROGRAM_MISMATCH
  else if program.length = 20 then
    if witness.length = 2 then .ok (witness, payToPubKeyHash program)
    else .error SCRIPT_ERR_WITNESS_PROGRAM_MISMATCH
  else .error SCRIPT_ERR_WITNESS_PROGRAM_WRONG_LENGTH

/-- `VerifyWitnessProgram`. -/
def verifyWitnessProgram (witness : List Bytes) (witversion : ℕ) (program : Bytes) :
    EStateM Interrupt ℕ Unit :=
  if witversion = 0 then do
    let start ← ofReturned (witnessScript crypto witness program)
    scriptErrorIf (∃ vch ∈ start.1, MAX_SCRIPT_ELEMENT_SIZE < vch.length) SCRIPT_ERR_PUSH_SIZE
    let stack ← evalScript crypto flags checker .SIGVERSION_WITNESS_V0 start.1 start.2
    scriptErrorIf (stack.length ≠ 1) SCRIPT_ERR_EVAL_FALSE
    requireTrue stack
  else
    scriptErrorIf (hasFlag flags SCRIPT_VERIFY_DISCOURAGE_UPGRADABLE_WITNESS_PROGRAM)
      SCRIPT_ERR_DISCOURAGE_UPGRADABLE_WITNESS_PROGRAM

/-- The verification of a script that may be a witness program, after its own evaluation has left
the stack: `hadWitness` and the stack, which `resize(1)` cleans for a witness program. -/
def verifyProgramOf (script : CScript) (witness : List Bytes) (fMalleated : Bool)
    (eMalleated : ScriptError) (stack : List Bytes) : EStateM Interrupt ℕ (Bool × List Bytes) :=
  match CScript.isWitnessProgram script with
  | some (witnessversion, witnessprogram) =>
    if hasFlag flags SCRIPT_VERIFY_WITNESS then do
      scriptErrorIf fMalleated eMalleated
      verifyWitnessProgram crypto flags checker witness witnessversion witnessprogram
      return (true, [stack.headD []])
    else return (false, stack)
  | none => return (false, stack)

/-- The validation of a script hash: the redeem script is evaluated on the stack that the
`scriptSig` has left. -/
def verifyRedeemScript (scriptSig : CScript) (witness stackCopy : List Bytes) :
    EStateM Interrupt ℕ (Bool × List Bytes) := do
  scriptErrorIf (!CScript.isPushOnly scriptSig) SCRIPT_ERR_SIG_PUSHONLY
  let pubKey2 ← ofAssert stackCopy.getLast?
  let stack ← evalScript crypto flags checker .SIGVERSION_BASE stackCopy.dropLast pubKey2
  requireTrue stack
  verifyProgramOf crypto flags checker pubKey2 witness (scriptSig != CScript.pushData [] pubKey2)
    SCRIPT_ERR_WITNESS_MALLEATED_P2SH stack

def verifyCleanStack (stack : List Bytes) : EStateM Interrupt ℕ Unit :=
  if hasFlag flags SCRIPT_VERIFY_CLEANSTACK then do
    ofAssert (if hasFlag flags SCRIPT_VERIFY_P2SH then some () else none)
    ofAssert (if hasFlag flags SCRIPT_VERIFY_WITNESS then some () else none)
    scriptErrorIf (stack.length ≠ 1) SCRIPT_ERR_CLEANSTACK
  else pure ()

def verifyWitnessUsed (witness : List Bytes) (hadWitness : Bool) : EStateM Interrupt ℕ Unit :=
  if hasFlag flags SCRIPT_VERIFY_WITNESS then do
    ofAssert (if hasFlag flags SCRIPT_VERIFY_P2SH then some () else none)
    scriptErrorIf (!hadWitness && witness ≠ []) SCRIPT_ERR_WITNESS_UNEXPECTED
  else pure ()

def verifyClean (witness : List Bytes) (hadWitness : Bool) (stack : List Bytes) :
    EStateM Interrupt ℕ Unit := do
  verifyCleanStack flags stack
  verifyWitnessUsed flags witness hadWitness

/-- The part of `VerifyScript` after the evaluation of the `scriptPubKey`, which has left the stack;
`stackCopy` is the stack before it. -/
def verifyPrograms (scriptSig scriptPubKey : CScript) (witness stackCopy stack : List Bytes) :
    EStateM Interrupt ℕ Unit := do
  let bare ← verifyProgramOf crypto flags checker scriptPubKey witness (scriptSig.length != 0)
    SCRIPT_ERR_WITNESS_MALLEATED stack
  if hasFlag flags SCRIPT_VERIFY_P2SH && CScript.isPayToScriptHash scriptPubKey then
    let redeemed ← verifyRedeemScript crypto flags checker scriptSig witness stackCopy
    verifyClean flags witness (bare.1 || redeemed.1) redeemed.2
  else verifyClean flags witness bare.1 bare.2

def verifyScriptRun (scriptSig scriptPubKey : CScript) (witness : List Bytes) :
    EStateM Interrupt ℕ Unit := do
  scriptErrorIf (hasFlag flags SCRIPT_VERIFY_SIGPUSHONLY && !CScript.isPushOnly scriptSig) SCRIPT_ERR_SIG_PUSHONLY
  let stackCopy ← evalScript crypto flags checker .SIGVERSION_BASE [] scriptSig
  let stack ← evalScript crypto flags checker .SIGVERSION_BASE stackCopy scriptPubKey
  requireTrue stack
  verifyPrograms crypto flags checker scriptSig scriptPubKey witness stackCopy stack

/-- `VerifyScript`. -/
def verifyScript (scriptSig scriptPubKey : CScript) (witness : List Bytes) : ScriptOutcome :=
  match verifyScriptRun crypto flags checker scriptSig scriptPubKey witness 0 with
  | .ok _ n => ⟨.ok (), n⟩
  | .error e n => ⟨.error e, n⟩

variable {crypto flags checker} {scriptSig scriptPubKey : CScript} {witness : List Bytes}

lemma verifyScript_result_eq_ok_iff :
    (verifyScript crypto flags checker scriptSig scriptPubKey witness).result = .ok () ↔
      ∃ n, verifyScriptRun crypto flags checker scriptSig scriptPubKey witness 0 = .ok () n := by
  unfold verifyScript
  cases verifyScriptRun crypto flags checker scriptSig scriptPubKey witness 0 with
  | ok u n => exact ⟨fun _ => ⟨n, rfl⟩, fun _ => rfl⟩
  | error e n => simp

lemma verifyScript_nCheckSig :
    (verifyScript crypto flags checker scriptSig scriptPubKey witness).nCheckSig =
      after (verifyScriptRun crypto flags checker scriptSig scriptPubKey witness 0) := by
  unfold verifyScript
  cases verifyScriptRun crypto flags checker scriptSig scriptPubKey witness 0 with
  | ok u n => rfl
  | error e n => rfl

end VerifyScript

/-- `CountWitnessSigOps`, which asserts that `SCRIPT_VERIFY_WITNESS` comes with
`SCRIPT_VERIFY_P2SH`. -/
def countWitnessSigOps (scriptSig scriptPubKey : CScript) (witness : List Bytes) (flags : UInt32) :
    Option ℕ :=
  if !hasFlag flags SCRIPT_VERIFY_WITNESS then some 0
  else if !hasFlag flags SCRIPT_VERIFY_P2SH then none
  else some (CScript.countWitnessSigOps scriptSig scriptPubKey witness)

/-!
## Script flags are soft forks

A run of `EvalScript` that succeeds under some flags is repeated under fewer flags, but for the time
locks.
-/

/-- The implications that `VerifyScript` asserts. -/
structure FlagsCoherent (flags : UInt32) : Prop where
  cleanStack : hasFlag flags SCRIPT_VERIFY_CLEANSTACK = true →
    hasFlag flags SCRIPT_VERIFY_P2SH = true ∧ hasFlag flags SCRIPT_VERIFY_WITNESS = true
  witness : hasFlag flags SCRIPT_VERIFY_WITNESS = true → hasFlag flags SCRIPT_VERIFY_P2SH = true

/-- `flags'` is a subset of `flags` and, where it discourages NOPs, keeps the time locks. -/
structure Relaxes (flags flags' : UInt32) : Prop where
  subset : flags' &&& flags = flags'
  checkLockTimeVerify : hasFlag flags' SCRIPT_VERIFY_DISCOURAGE_UPGRADABLE_NOPS = true →
    hasFlag flags SCRIPT_VERIFY_CHECKLOCKTIMEVERIFY = true →
      hasFlag flags' SCRIPT_VERIFY_CHECKLOCKTIMEVERIFY = true
  checkSequenceVerify : hasFlag flags' SCRIPT_VERIFY_DISCOURAGE_UPGRADABLE_NOPS = true →
    hasFlag flags SCRIPT_VERIFY_CHECKSEQUENCEVERIFY = true →
      hasFlag flags' SCRIPT_VERIFY_CHECKSEQUENCEVERIFY = true

section Permits

variable {σ : Type}

lemma permits_failIf {c d : Prop} [Decidable c] [Decidable d] {e e' : ScriptError} (h : d → c) :
    Permits (scriptErrorIf c e : EStateM Interrupt σ Unit) (scriptErrorIf d e') := stopIf h

lemma permits_ofReturned {α : Type} {x y : Except ScriptError α}
    (h : ∀ a, x = .ok a → y = .ok a) :
    Permits (ofReturned x : EStateM Interrupt σ α) (ofReturned y) := by
  intro s a s' hs
  obtain ⟨hx, rfl⟩ := state_of_ofReturned hs
  rw [h a hx]
  rfl

end Permits

section EvalScript

variable {crypto : ScriptCrypto} {flags flags' : UInt32} {checker : SignatureChecker}
  {sigversion : SigVersion}

lemma fRequireMinimal_of_relaxes (h : Relaxes flags flags') :
    fRequireMinimal flags' = true → fRequireMinimal flags = true := hasFlag_of_subset h.subset

lemma permits_readNum (h : Relaxes flags flags') (i nMaxNumSize : ℕ) :
    Permits (readNum flags i nMaxNumSize) (readNum flags' i nMaxNumSize) := by
  refine rest _ fun vch => ?_
  intro s bn s' hs
  obtain ⟨hnum, rfl⟩ := state_of_ofScriptNum hs
  rw [CScriptNum.ofVch_of_minimal (fRequireMinimal_of_relaxes h) hnum]
  rfl

lemma permits_timeLock (h : Relaxes flags flags') {flag : UInt32} {x x' : Interp Unit}
    (hkeep : hasFlag flags' SCRIPT_VERIFY_DISCOURAGE_UPGRADABLE_NOPS = true →
      hasFlag flags flag = true → hasFlag flags' flag = true)
    (hx : Permits x x') (hstay : ∀ s a s', x s = .ok a s' → s = s') :
    Permits
      (if !hasFlag flags flag then
        scriptErrorIf (hasFlag flags SCRIPT_VERIFY_DISCOURAGE_UPGRADABLE_NOPS)
          SCRIPT_ERR_DISCOURAGE_UPGRADABLE_NOPS
      else x)
      (if !hasFlag flags' flag then
        scriptErrorIf (hasFlag flags' SCRIPT_VERIFY_DISCOURAGE_UPGRADABLE_NOPS)
          SCRIPT_ERR_DISCOURAGE_UPGRADABLE_NOPS
      else x') := by
  cases hflag : hasFlag flags flag with
  | false =>
    have hflag' : hasFlag flags' flag = false := by
      rw [← not_eq_true] at hflag ⊢
      exact fun h' => hflag (hasFlag_of_subset h.subset h')
    rw [hflag']
    exact permits_failIf (hasFlag_of_subset h.subset)
  | true =>
    cases hflag' : hasFlag flags' flag with
    | true => exact hx
    | false =>
      have hnop : ¬hasFlag flags' SCRIPT_VERIFY_DISCOURAGE_UPGRADABLE_NOPS = true := by
        intro hdiscourage
        have := hkeep hdiscourage hflag
        rw [hflag'] at this
        exact Bool.noConfusion this
      intro s a s' hs
      obtain rfl := hstay s a s' hs
      exact scriptErrorIf_eq_ok_iff.mpr ⟨hnop, rfl⟩

lemma state_of_lockTest {c d : ℤ → Prop} [DecidablePred c] [DecidablePred d] {e e' : ScriptError}
    {a : Unit} {s s' : EvalState}
    (hs : (do
      needStack 1 SCRIPT_ERR_INVALID_STACK_OPERATION
      let bn ← readNum flags 1 5
      scriptErrorIf (c bn) e
      scriptErrorIf (d bn) e') s = .ok a s') : s = s' := by
  obtain ⟨_, t, h1, hs⟩ := run_bind_eq_ok_iff.mp hs
  obtain ⟨-, rfl⟩ := state_of_needStack h1
  obtain ⟨_, t, h2, hs⟩ := run_bind_eq_ok_iff.mp hs
  obtain ⟨_, -, -, rfl⟩ := state_of_readNum h2
  obtain ⟨_, t, h3, hs⟩ := run_bind_eq_ok_iff.mp hs
  obtain ⟨-, rfl⟩ := scriptErrorIf_eq_ok_iff.mp h3
  exact (scriptErrorIf_eq_ok_iff.mp hs).2

lemma permits_evalCheckLockTimeVerify (h : Relaxes flags flags') :
    Permits (evalCheckLockTimeVerify flags checker) (evalCheckLockTimeVerify flags' checker) := by
  refine permits_timeLock h h.checkLockTimeVerify ?_ fun _ _ _ hs => state_of_lockTest hs
  refine rest _ fun _ => ?_
  exact (permits_readNum h 1 5).bind fun _ => refl _

lemma permits_evalCheckSequenceVerify (h : Relaxes flags flags') :
    Permits (evalCheckSequenceVerify flags checker) (evalCheckSequenceVerify flags' checker) := by
  refine permits_timeLock h h.checkSequenceVerify ?_ fun _ _ _ hs => state_of_lockTest hs
  refine rest _ fun _ => ?_
  exact (permits_readNum h 1 5).bind fun _ => refl _

lemma permits_evalIf (h : Relaxes flags flags') (opcode : Opcode) (fExec : Bool) :
    Permits (evalIf flags sigversion opcode fExec) (evalIf flags' sigversion opcode fExec) := by
  refine ite (fun _ => ?_) fun _ => refl _
  refine rest _ fun _ => rest _ fun vch => ?_
  refine bind (permits_failIf ?_) fun _ => refl _
  simp only [and_eq_true]
  rintro ⟨⟨hwitness, hif⟩, hminimal⟩
  exact ⟨⟨hwitness, hasFlag_of_subset h.subset hif⟩, hminimal⟩

lemma permits_evalPickRoll (h : Relaxes flags flags') (opcode : Opcode) :
    Permits (evalPickRoll flags opcode) (evalPickRoll flags' opcode) := by
  refine rest _ fun _ => ?_
  exact (permits_readNum h 1 _).bind fun _ => refl _

lemma permits_evalUnary (h : Relaxes flags flags') (opcode : Opcode) :
    Permits (evalUnary flags opcode) (evalUnary flags' opcode) := by
  refine rest _ fun _ => ?_
  exact (permits_readNum h 1 _).bind fun _ => refl _

lemma permits_evalBinary (h : Relaxes flags flags') (opcode : Opcode) :
    Permits (evalBinary flags opcode) (evalBinary flags' opcode) := by
  refine rest _ fun _ => (permits_readNum h 2 _).bind fun _ => ?_
  exact (permits_readNum h 1 _).bind fun _ => refl _

lemma permits_evalWithin (h : Relaxes flags flags') :
    Permits (evalWithin flags) (evalWithin flags') := by
  refine rest _ fun _ => (permits_readNum h 3 _).bind fun _ => ?_
  refine (permits_readNum h 2 _).bind fun _ => ?_
  exact (permits_readNum h 1 _).bind fun _ => refl _

lemma permits_evalBlock (h : Relaxes flags flags') (fExec : Bool) (r : CScript.GetOpResult)
    (block : Block) : Permits (evalBlock crypto flags checker sigversion fExec r block)
      (evalBlock crypto flags' checker sigversion fExec r block) := by
  cases block with
  | checkLockTimeVerify => exact permits_evalCheckLockTimeVerify h
  | checkSequenceVerify => exact permits_evalCheckSequenceVerify h
  | upgradableNop => exact permits_failIf (hasFlag_of_subset h.subset)
  | ifNotIf => exact permits_evalIf h r.opcodeRet fExec
  | pickRoll => exact permits_evalPickRoll h r.opcodeRet
  | unary => exact permits_evalUnary h r.opcodeRet
  | binary => exact permits_evalBinary h r.opcodeRet
  | within => exact permits_evalWithin h
  | _ => exact refl _

lemma checkSignatureEncoding_of_relaxes (h : Relaxes flags flags') {vchSig : Bytes}
    (hok : checkSignatureEncoding crypto flags vchSig = .ok ()) :
    checkSignatureEncoding crypto flags' vchSig = .ok () := by
  unfold checkSignatureEncoding at hok ⊢
  simp only [and_eq_true] at hok ⊢
  by_cases hempty : vchSig.length = 0
  · rw [if_pos hempty]
  · rw [if_neg hempty] at hok ⊢
    obtain ⟨hder, hok⟩ := ite_error_eq_ok_iff.mp hok
    rw [if_neg fun hc => hder ⟨hasFlag_of_subset h.subset hc.1, hc.2⟩]
    obtain ⟨hlow, hhash⟩ := unit_bind_eq_ok_iff.mp hok
    refine unit_bind_eq_ok_iff.mpr ⟨?_, ?_⟩
    · split_ifs with hflag
      · rwa [if_pos (hasFlag_of_subset h.subset hflag)] at hlow
      · rfl
    · obtain ⟨hdefined, -⟩ := ite_error_eq_ok_iff.mp hhash
      rw [if_neg fun hc => hdefined ⟨hasFlag_of_subset h.subset hc.1, hc.2⟩]

lemma checkPubKeyEncoding_of_relaxes (h : Relaxes flags flags') {vchPubKey : Bytes}
    (hok : checkPubKeyEncoding flags sigversion vchPubKey = .ok ()) :
    checkPubKeyEncoding flags' sigversion vchPubKey = .ok () := by
  unfold checkPubKeyEncoding at hok ⊢
  simp only [and_eq_true] at hok ⊢
  split_ifs at hok with hstrict htype
  rw [if_neg fun hc => hstrict ⟨hasFlag_of_subset h.subset hc.1, hc.2⟩,
    if_neg fun hc => htype ⟨⟨hasFlag_of_subset h.subset hc.1.1, hc.1.2⟩, hc.2⟩]

lemma permits_checkEncodings (h : Relaxes flags flags') (vchSig vchPubKey : Bytes) :
    Permits (checkEncodings crypto flags sigversion vchSig vchPubKey)
      (checkEncodings crypto flags' sigversion vchSig vchPubKey) :=
  (permits_ofReturned fun _ => checkSignatureEncoding_of_relaxes h).bind fun _ =>
    permits_ofReturned fun _ => checkPubKeyEncoding_of_relaxes h

lemma permits_evalCheckSig (h : Relaxes flags flags') (opcode : Opcode) :
    Permits (evalCheckSig crypto flags checker sigversion opcode)
      (evalCheckSig crypto flags' checker sigversion opcode) := by
  refine bind (metered ?_) fun args => rest _ fun fSuccess => metered ?_
  · refine rest _ fun _ => rest _ fun _ => rest _ fun _ => rest _ fun _ => ?_
    exact (permits_checkEncodings h _ _).bind fun _ => refl _
  · refine bind (permits_failIf ?_) fun _ => refl _
    simp only [and_eq_true]
    rintro ⟨⟨hfail, hnull⟩, hsize⟩
    exact ⟨⟨hfail, hasFlag_of_subset h.subset hnull⟩, hsize⟩

lemma permits_multisigArgs (h : Relaxes flags flags') :
    Permits (multisigArgs flags sigversion) (multisigArgs flags' sigversion) := by
  refine bind ?_ fun nKeysCount => bind ?_ fun nSigsCount => refl _
  · refine rest _ fun _ => ?_
    exact (permits_readNum h 1 _).bind fun _ => refl _
  · refine rest _ fun _ => ?_
    exact (permits_readNum h (2 + nKeysCount) _).bind fun _ => refl _

lemma permits_multisigLoop (h : Relaxes flags flags') (scriptCode : CScript) (nKeysCount : ℕ) :
    ∀ ikey nSigsCount isig,
      Permits (multisigLoop crypto flags checker sigversion scriptCode nKeysCount ikey nSigsCount isig)
        (multisigLoop crypto flags' checker sigversion scriptCode nKeysCount ikey nSigsCount isig) := by
  induction nKeysCount with
  | zero =>
    intro ikey nSigsCount isig
    exact refl _
  | succ nKeysCount ih =>
    intro ikey nSigsCount isig
    refine ite (fun _ => refl _) fun _ => ?_
    refine rest _ fun vchSig => rest _ fun vchPubKey => ?_
    refine (permits_checkEncodings h vchSig vchPubKey).metered.bind fun _ => rest _ fun fOk => ?_
    exact ite (fun _ => refl _) fun _ => ih _ _ _

lemma permits_cleanUpStack (h : Relaxes flags flags') (fSuccess : Bool) (i : ℕ) :
    ∀ ikey2, Permits (cleanUpStack flags fSuccess i ikey2) (cleanUpStack flags' fSuccess i ikey2) := by
  induction i with
  | zero =>
    intro ikey2
    exact refl _
  | succ i ih =>
    intro ikey2
    refine rest _ fun vch => bind (permits_failIf ?_) fun _ => rest _ fun _ => ih _
    simp only [and_eq_true]
    rintro ⟨⟨⟨hfail, hnull⟩, hkey⟩, hsize⟩
    exact ⟨⟨⟨hfail, hasFlag_of_subset h.subset hnull⟩, hkey⟩, hsize⟩

lemma permits_evalCheckMultisig (h : Relaxes flags flags') (opcode : Opcode) :
    Permits (evalCheckMultisig crypto flags checker sigversion opcode)
      (evalCheckMultisig crypto flags' checker sigversion opcode) := by
  refine (permits_multisigArgs h).metered.bind fun args => ?_
  refine (permits_multisigLoop h _ _ _ _ _).bind fun fSuccess => metered ?_
  refine (permits_cleanUpStack h fSuccess _ _).bind fun _ => ?_
  refine rest _ fun _ => rest _ fun vch => ?_
  refine bind (permits_failIf ?_) fun _ => refl _
  simp only [and_eq_true]
  rintro ⟨hnull, hsize⟩
  exact ⟨hasFlag_of_subset h.subset hnull, hsize⟩

lemma permits_evalSwitch (h : Relaxes flags flags') (fExec : Bool) (r : CScript.GetOpResult) :
    Permits (evalSwitch crypto flags checker sigversion fExec r)
      (evalSwitch crypto flags' checker sigversion fExec r) := by
  unfold evalSwitch
  cases switchLabel r.opcodeRet with
  | none => exact refl _
  | some label =>
    cases label with
    | plain block => exact (permits_evalBlock h fExec r block).metered
    | checkSig => exact permits_evalCheckSig h r.opcodeRet
    | checkMultisig => exact permits_evalCheckMultisig h r.opcodeRet

lemma permits_evalOp (h : Relaxes flags flags') (r : CScript.GetOpResult) :
    Permits (evalOp crypto flags checker sigversion r)
      (evalOp crypto flags' checker sigversion r) := by
  refine rest _ fun fExec => bind ?_ fun _ => refl _
  unfold execute
  refine ite (fun _ => ?_) fun _ => ite (fun _ => ?_) fun _ => refl _
  · refine (bind (permits_failIf ?_) fun _ => refl _).metered
    simp only [and_eq_true]
    rintro ⟨hmin, hpush⟩
    exact ⟨fRequireMinimal_of_relaxes h hmin, hpush⟩
  · exact permits_evalSwitch h fExec r

lemma permits_evalScript (h : Relaxes flags flags') (stack : List Bytes) (script : CScript) :
    Permits (evalScript crypto flags checker sigversion stack script)
      (evalScript crypto flags' checker sigversion stack script) := by
  have hops : Permits (evalOps crypto flags checker sigversion script)
      (evalOps crypto flags' checker sigversion script) :=
    rest _ fun _ => (forM (permits_evalOp h) _).bind fun _ => refl _
  intro n stack' n' hrun
  unfold evalScript at hrun ⊢
  cases hev : evalOps crypto flags checker sigversion script ⟨⟨stack, [], [], 0, script⟩, n⟩ with
  | ok u m =>
    rw [hev] at hrun
    rw [hops _ _ _ hev]
    exact hrun
  | error e m =>
    rw [hev] at hrun
    exact EStateM.Result.noConfusion rfl rfl rfl (heq_of_eq hrun)

end EvalScript

section VerifyScript

variable {crypto : ScriptCrypto} {flags flags' : UInt32} {checker : SignatureChecker}

lemma permits_verifyWitnessProgram (h : Relaxes flags flags') (witness : List Bytes) (witversion : ℕ)
    (program : Bytes) : Permits (verifyWitnessProgram crypto flags checker witness witversion program)
      (verifyWitnessProgram crypto flags' checker witness witversion program) := by
  refine ite (fun _ => ?_) fun _ => permits_failIf (hasFlag_of_subset h.subset)
  refine rest _ fun start => rest _ fun _ => ?_
  exact (permits_evalScript h start.1 start.2).bind fun _ => refl _

section Witness

variable (h : Relaxes flags flags') (hwitness : hasFlag flags' SCRIPT_VERIFY_WITNESS = true)

include h hwitness

lemma permits_verifyProgramOf (script : CScript) (witness : List Bytes) (fMalleated : Bool)
    (eMalleated : ScriptError) (stack : List Bytes) :
    Permits (verifyProgramOf crypto flags checker script witness fMalleated eMalleated stack)
      (verifyProgramOf crypto flags' checker script witness fMalleated eMalleated stack) := by
  unfold verifyProgramOf
  cases CScript.isWitnessProgram script with
  | none => exact refl _
  | some program =>
    simp only [hwitness, hasFlag_of_subset h.subset hwitness, if_true]
    refine rest _ fun _ => ?_
    exact (permits_verifyWitnessProgram h _ _ _).bind fun _ => refl _

lemma permits_verifyRedeemScript (scriptSig : CScript) (witness stackCopy : List Bytes) :
    Permits (verifyRedeemScript crypto flags checker scriptSig witness stackCopy)
      (verifyRedeemScript crypto flags' checker scriptSig witness stackCopy) := by
  refine rest _ fun _ => rest _ fun pubKey2 => ?_
  refine (permits_evalScript h _ _).bind fun stack => rest _ fun _ => ?_
  exact permits_verifyProgramOf h hwitness _ _ _ _ _

lemma permits_verifyClean (witness : List Bytes) (hadWitness : Bool) (stack : List Bytes)
    (hcoherent : FlagsCoherent flags') :
    Permits (verifyClean flags witness hadWitness stack)
      (verifyClean flags' witness hadWitness stack) := by
  have hwitness₀ := hasFlag_of_subset h.subset hwitness
  have hp2sh := hcoherent.witness hwitness
  have hp2sh₀ := hasFlag_of_subset h.subset hp2sh
  refine bind ?_ fun _ => ?_
  · unfold verifyCleanStack
    simp only [hwitness, hwitness₀, hp2sh, hp2sh₀, if_true]
    by_cases hclean' : hasFlag flags' SCRIPT_VERIFY_CLEANSTACK = true
    · rw [if_pos hclean', if_pos (hasFlag_of_subset h.subset hclean')]
      exact refl _
    · rw [if_neg hclean']
      split_ifs with hclean
      · intro s a s' hs
        obtain ⟨_, t, h₁, hs⟩ := run_bind_eq_ok_iff.mp hs
        obtain ⟨-, rfl⟩ := state_of_ofAssert h₁
        obtain ⟨_, t, h₂, hs⟩ := run_bind_eq_ok_iff.mp hs
        obtain ⟨-, rfl⟩ := state_of_ofAssert h₂
        obtain ⟨-, rfl⟩ := scriptErrorIf_eq_ok_iff.mp hs
        rfl
      · exact refl _
  · unfold verifyWitnessUsed
    rw [hwitness, hwitness₀, hp2sh, hp2sh₀]
    exact refl _

lemma permits_verifyPrograms (scriptSig scriptPubKey : CScript) (witness stackCopy stack : List Bytes)
    (hcoherent : FlagsCoherent flags') :
    Permits (verifyPrograms crypto flags checker scriptSig scriptPubKey witness stackCopy stack)
      (verifyPrograms crypto flags' checker scriptSig scriptPubKey witness stackCopy stack) := by
  have hp2sh := hcoherent.witness hwitness
  refine (permits_verifyProgramOf h hwitness _ _ _ _ _).bind fun bare => ?_
  rw [hp2sh, hasFlag_of_subset h.subset hp2sh]
  refine ite (fun _ => ?_) fun _ => permits_verifyClean h hwitness _ _ _ hcoherent
  refine (permits_verifyRedeemScript h hwitness _ _ _).bind fun redeemed => ?_
  exact permits_verifyClean h hwitness _ _ _ hcoherent

end Witness

section NoWitness

variable (hwitness : ¬hasFlag flags' SCRIPT_VERIFY_WITNESS = true)

include hwitness

lemma verifyProgramOf_of_not_witness (script : CScript) (witness : List Bytes) (fMalleated : Bool)
    (eMalleated : ScriptError) (stack : List Bytes) :
    verifyProgramOf crypto flags' checker script witness fMalleated eMalleated stack =
      pure (false, stack) := by
  unfold verifyProgramOf
  cases CScript.isWitnessProgram script with
  | none => rfl
  | some program => exact if_neg hwitness

lemma verifyClean_of_not_witness (hcoherent : FlagsCoherent flags') (witness : List Bytes)
    (hadWitness : Bool) (stack : List Bytes) :
    verifyClean flags' witness hadWitness stack = pure () := by
  have hclean : ¬hasFlag flags' SCRIPT_VERIFY_CLEANSTACK = true := fun hc =>
    hwitness (hcoherent.cleanStack hc).2
  unfold verifyClean verifyCleanStack verifyWitnessUsed
  rw [if_neg hclean, if_neg hwitness]
  rfl

lemma exists_verifyPrograms_of_not_witness (h : Relaxes flags flags') (hcoherent : FlagsCoherent flags')
    {scriptSig scriptPubKey : CScript} {witness stackCopy stack : List Bytes} {n n' : ℕ}
    (hrun : verifyPrograms crypto flags checker scriptSig scriptPubKey witness stackCopy stack n =
      .ok () n') :
    ∃ n'', verifyPrograms crypto flags' checker scriptSig scriptPubKey witness stackCopy stack n =
      .ok () n'' := by
  have hbare := @verifyProgramOf_of_not_witness crypto flags' checker hwitness
  obtain ⟨bare, n₁, hbare₁, hrest⟩ := run_bind_eq_ok_iff.mp hrun
  unfold verifyPrograms
  rw [hbare, pure_bind]
  by_cases hhash : (hasFlag flags' SCRIPT_VERIFY_P2SH && CScript.isPayToScriptHash scriptPubKey) = true
  · rw [if_pos hhash]
    simp only [and_eq_true] at hhash
    -- no witness program, so the larger set of flags has checked nothing before the redeem script
    have hnone := isWitnessProgram_of_isPayToScriptHash hhash.2
    unfold verifyProgramOf at hbare₁
    rw [hnone] at hbare₁
    obtain ⟨rfl, rfl⟩ : (false, stack) = bare ∧ n = n₁ := by
      simpa [pure, EStateM.pure] using hbare₁
    rw [hhash.2, hasFlag_of_subset h.subset hhash.1] at hrest
    obtain ⟨redeemed, n₂, hredeemed, -⟩ := run_bind_eq_ok_iff.mp hrest
    obtain ⟨_, t, h₁, hredeemed⟩ := run_bind_eq_ok_iff.mp hredeemed
    obtain ⟨pubKey2, t₂, h₂, hredeemed⟩ := run_bind_eq_ok_iff.mp hredeemed
    obtain ⟨stack₂, t₃, h₃, hredeemed⟩ := run_bind_eq_ok_iff.mp hredeemed
    obtain ⟨_, t₄, h₄, -⟩ := run_bind_eq_ok_iff.mp hredeemed
    refine ⟨t₄, run_bind_eq_ok_iff.mpr ⟨(false, stack₂), t₄, ?_, ?_⟩⟩
    · refine run_bind_eq_ok_iff.mpr ⟨_, t, h₁, run_bind_eq_ok_iff.mpr ⟨pubKey2, t₂, h₂, ?_⟩⟩
      refine run_bind_eq_ok_iff.mpr ⟨stack₂, t₃, permits_evalScript h _ _ _ _ _ h₃, ?_⟩
      refine run_bind_eq_ok_iff.mpr ⟨_, t₄, h₄, ?_⟩
      rw [hbare]
      rfl
    · rw [verifyClean_of_not_witness hwitness hcoherent]
      rfl
  · rw [if_neg hhash, verifyClean_of_not_witness hwitness hcoherent]
    exact ⟨n, rfl⟩

end NoWitness

/-- Fewer flags verify more scripts. -/
theorem verifyScript_of_relaxes (scriptSig scriptPubKey : CScript) (witness : List Bytes)
    (hcoherent' : FlagsCoherent flags')
    (hrelaxes : Relaxes flags flags')
    (hok : (verifyScript crypto flags checker scriptSig scriptPubKey witness).result = .ok ()) :
    (verifyScript crypto flags' checker scriptSig scriptPubKey witness).result = .ok () := by
  obtain ⟨n, hrun⟩ := verifyScript_result_eq_ok_iff.mp hok
  obtain ⟨_, t₁, h₁, hrun⟩ := run_bind_eq_ok_iff.mp hrun
  obtain ⟨stackCopy, t₂, h₂, hrun⟩ := run_bind_eq_ok_iff.mp hrun
  obtain ⟨stack, t₃, h₃, hrun⟩ := run_bind_eq_ok_iff.mp hrun
  obtain ⟨_, t₄, h₄, hrun⟩ := run_bind_eq_ok_iff.mp hrun
  have hprograms : ∃ n', verifyPrograms crypto flags' checker scriptSig scriptPubKey witness stackCopy
      stack t₄ = .ok () n' := by
    by_cases hwitness : hasFlag flags' SCRIPT_VERIFY_WITNESS = true
    · exact ⟨n, permits_verifyPrograms hrelaxes hwitness _ _ _ _ _ hcoherent' _ _ _ hrun⟩
    · exact exists_verifyPrograms_of_not_witness hwitness hrelaxes hcoherent' hrun
  obtain ⟨n', hprograms⟩ := hprograms
  refine verifyScript_result_eq_ok_iff.mpr ⟨n', ?_⟩
  refine run_bind_eq_ok_iff.mpr ⟨_, t₁, permits_failIf ?_ _ _ _ h₁, ?_⟩
  · simp only [and_eq_true]
    rintro ⟨hflag, hpush⟩
    exact ⟨hasFlag_of_subset hrelaxes.subset hflag, hpush⟩
  · refine run_bind_eq_ok_iff.mpr ⟨stackCopy, t₂, permits_evalScript hrelaxes _ _ _ _ _ h₂, ?_⟩
    refine run_bind_eq_ok_iff.mpr ⟨stack, t₃, permits_evalScript hrelaxes _ _ _ _ _ h₃, ?_⟩
    exact run_bind_eq_ok_iff.mpr ⟨_, t₄, h₄, hprograms⟩

end VerifyScript

section Standard

def sha256Only : ScriptCrypto where
  ripemd160 _ := default
  sha1 _ := default
  sha256 := cSHA256
  checkLowS _ := false

def refusingChecker : SignatureChecker where
  checkSig _ _ _ _ := some false
  checkLockTime _ := false
  checkSequence _ := false

/-- An output that pays to the hash of the witness script `OP_1`. -/
def payToTrue : CScript := CScript.pushData [OP_0] (cSHA256 [OP_1]).data

lemma relaxes_mandatory : Relaxes STANDARD_SCRIPT_VERIFY_FLAGS MANDATORY_SCRIPT_VERIFY_FLAGS where
  subset := by decide
  checkLockTimeVerify := by decide
  checkSequenceVerify := by decide

theorem verifyScript_of_relaxes_payToTrue :
    (verifyScript sha256Only STANDARD_SCRIPT_VERIFY_FLAGS refusingChecker [] payToTrue
      [[OP_1]]).result = .ok () ∧
    (verifyScript sha256Only MANDATORY_SCRIPT_VERIFY_FLAGS refusingChecker [] payToTrue
      [[OP_1]]).result = .ok () := by
  have hstandard : (verifyScript sha256Only STANDARD_SCRIPT_VERIFY_FLAGS refusingChecker [] payToTrue
      [[OP_1]]).result = .ok () := by decide +kernel
  have hcoherent : FlagsCoherent MANDATORY_SCRIPT_VERIFY_FLAGS := ⟨by decide, by decide⟩
  exact ⟨hstandard, verifyScript_of_relaxes [] payToTrue [[OP_1]] hcoherent relaxes_mandatory hstandard⟩

end Standard

end MutableBitcoin
