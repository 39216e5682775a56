import MutableBitcoin.VerifyScript

/-!
# Signature operations bound signature checks

The static count of a script's signature operations looks at opcodes alone. An execution checks at
most that many signatures.
-/

namespace MutableBitcoin
open Lib Opcode ScriptError List CScript Nat

section Count

def sigOpsOf (fAccurate : Bool) (lastOpcode opcode : Opcode) : ℕ :=
  if opcode = OP_CHECKSIG ∨ opcode = OP_CHECKSIGVERIFY then 1
  else if opcode = OP_CHECKMULTISIG ∨ opcode = OP_CHECKMULTISIGVERIFY then
    if fAccurate ∧ OP_1 ≤ lastOpcode ∧ lastOpcode ≤ OP_16 then decodeOpN lastOpcode
    else MAX_PUBKEYS_PER_MULTISIG
  else 0

variable {fAccurate : Bool} {acc : ℕ × Opcode} {r : CScript.GetOpResult}

lemma sigOpStep_eq :
    sigOpStep fAccurate acc r = (acc.1 + sigOpsOf fAccurate acc.2 r.opcodeRet, r.opcodeRet) := by
  unfold sigOpStep sigOpsOf
  split_ifs
  · rfl
  · rfl
  · rfl
  · rfl

lemma foldl_sigOpStep_add (ops : List CScript.GetOpResult) (n : ℕ) (lastOpcode : Opcode) :
    (ops.foldl (sigOpStep fAccurate) (n, lastOpcode)).1 =
      n + (ops.foldl (sigOpStep fAccurate) (0, lastOpcode)).1 := by
  induction ops generalizing n lastOpcode with
  | nil => rfl
  | cons r ops ih =>
    rw [foldl_cons, foldl_cons, sigOpStep_eq, sigOpStep_eq, ih, ih (0 + _)]
    dsimp only
    omega

lemma sigOpsOf_checkMultisig {lastOpcode opcode : Opcode}
    (h : opcode ∈ [OP_CHECKMULTISIG, OP_CHECKMULTISIGVERIFY]) :
    sigOpsOf fAccurate lastOpcode opcode =
      if fAccurate ∧ OP_1 ≤ lastOpcode ∧ lastOpcode ≤ OP_16 then decodeOpN lastOpcode
      else MAX_PUBKEYS_PER_MULTISIG := by
  unfold sigOpsOf
  simp only [mem_cons, not_mem_nil, or_false] at h
  rw [if_neg, if_pos h]
  obtain rfl | rfl := h
  · decide
  · decide

lemma decodeOpN_le {opcode : Opcode} (h : opcode ≤ OP_16) : decodeOpN opcode ≤ 16 := by
  unfold decodeOpN
  have hle : opcode.toNat ≤ 96 := UInt8.le_iff_toNat_le.mp h
  have hone : OP_1.toNat = 81 := rfl
  split_ifs
  · omega
  · omega

lemma decodeOpN_cast {opcode : Opcode} (h : OP_1 ≤ opcode) :
    (decodeOpN opcode : ℤ) = (opcode.toNat : ℤ) - ((OP_1.toNat : ℤ) - 1) := by
  have hle : 81 ≤ opcode.toNat := UInt8.le_iff_toNat_le.mp h
  have hone : OP_1.toNat = 81 := rfl
  have hzero : opcode ≠ OP_0 := by
    rintro rfl
    exact absurd hle (by decide)
  unfold decodeOpN
  rw [if_neg hzero]
  omega

lemma sigOpsOf_accurate_le (lastOpcode opcode : Opcode) :
    sigOpsOf true lastOpcode opcode ≤ sigOpsOf false lastOpcode opcode := by
  unfold sigOpsOf
  split_ifs with hsig hmulti hn hfalse hfalse
  · exact le_rfl
  · exact hfalse.1.elim
  · exact le_trans (decodeOpN_le hn.2.2) (by decide)
  · exact hfalse.1.elim
  · exact le_rfl
  · exact le_rfl

lemma getSigOpCount_accurate_le (script : CScript) :
    getSigOpCount script true ≤ getSigOpCount script false := by
  unfold getSigOpCount
  generalize (scan script).ops = ops
  generalize OP_INVALIDOPCODE = lastOpcode
  induction ops generalizing lastOpcode with
  | nil => exact le_rfl
  | cons r ops ih =>
    rw [foldl_cons, foldl_cons, sigOpStep_eq, sigOpStep_eq, foldl_sigOpStep_add,
      foldl_sigOpStep_add ops (0 + _)]
    have hop := sigOpsOf_accurate_le lastOpcode r.opcodeRet
    have hrest := ih r.opcodeRet
    dsimp only
    omega

end Count

section Scan

def sigOpsFrom (fuel : ℕ) (lastOpcode : Opcode) (pc : Bytes) : ℕ :=
  ((scanOps fuel pc).ops.foldl (sigOpStep true) (0, lastOpcode)).1

lemma getSigOpCount_eq (script : CScript) :
    getSigOpCount script true = sigOpsFrom (script.length + 1) OP_INVALIDOPCODE script := rfl

@[simp] lemma sigOpsFrom_nil (fuel : ℕ) (lastOpcode : Opcode) : sigOpsFrom fuel lastOpcode [] = 0 := by
  cases fuel with
  | zero => rfl
  | succ fuel => rfl

lemma sigOpsFrom_of_ok {pc : Bytes} {r : CScript.GetOpResult} (h : getOp2 pc = r)
    (hok : r.ok = true) (fuel : ℕ) (lastOpcode : Opcode) :
    sigOpsFrom (fuel + 1) lastOpcode pc =
      sigOpsOf true lastOpcode r.opcodeRet + sigOpsFrom fuel r.opcodeRet r.pc := by
  subst h
  unfold sigOpsFrom
  rw [scanOps]
  dsimp only
  rw [if_pos hok, foldl_cons, sigOpStep_eq, foldl_sigOpStep_add, zero_add]

lemma sigOpsFrom_opcode {opcode : Opcode} (h : ¬opcode ≤ OP_PUSHDATA4) (fuel : ℕ) (lastOpcode : Opcode)
    (pc : Bytes) : sigOpsFrom (fuel + 1) lastOpcode (opcode :: pc) =
      sigOpsOf true lastOpcode opcode + sigOpsFrom fuel opcode pc := by
  have hget : getOp2 (opcode :: pc) = ⟨true, opcode, [], pc⟩ := by
    unfold getOp2
    dsimp only
    rw [if_neg h]
  exact sigOpsFrom_of_ok hget rfl fuel lastOpcode

lemma getOp2_push {opcode : Opcode} {data : Bytes} (h : opcode < OP_PUSHDATA1)
    (hdata : data.length = opcode.toNat) (pc : Bytes) :
    getOp2 (opcode :: (data ++ pc)) = ⟨true, opcode, data, pc⟩ := by
  have hle : opcode ≤ OP_PUSHDATA4 := by
    have hlt : opcode.toNat < 76 := UInt8.lt_iff_toNat_lt.mp h
    exact UInt8.le_iff_toNat_le.mpr (show opcode.toNat ≤ 78 by omega)
  unfold getOp2 getOperand
  dsimp only
  rw [if_pos hle, if_pos h, if_neg (by rw [length_append]; omega), ← hdata, take_left,
    drop_left]

lemma getSigOpCount_payToPubKeyHash {program : Bytes} (h : program.length = 20) :
    getSigOpCount (payToPubKeyHash program) true = 1 := by
  have hscript : payToPubKeyHash program =
      OP_DUP :: OP_HASH160 :: 20 :: (program ++ [OP_EQUALVERIFY, OP_CHECKSIG]) := by
    unfold payToPubKeyHash pushData
    rw [h, if_pos (by decide)]
    rfl
  have hfuel : (OP_DUP :: OP_HASH160 :: 20 :: (program ++ [OP_EQUALVERIFY, OP_CHECKSIG])).length + 1 = 26 := by
    simp [h]
  rw [getSigOpCount_eq, hscript, hfuel, sigOpsFrom_opcode (by decide), sigOpsFrom_opcode (by decide),
    sigOpsFrom_of_ok (getOp2_push (by decide) h _) rfl, sigOpsFrom_opcode (by decide),
    sigOpsFrom_opcode (by decide), sigOpsFrom_nil]
  rfl

lemma getSigOpCount_of_isPayToScriptHash {script : CScript}
    (h : isPayToScriptHash script = true) : getSigOpCount script true = 0 := by
  unfold isPayToScriptHash at h
  simp only [Bool.and_eq_true, beq_iff_eq] at h
  obtain ⟨⟨⟨hlen, hop⟩, hsize⟩, hequal⟩ := h
  match script, hop, hsize with
  | op :: size :: rest, hop, hsize =>
    obtain rfl : op = OP_HASH160 := by simpa using hop
    obtain rfl : size = 0x14 := by simpa using hsize
    have hrest : rest.length = 21 := by simpa using hlen
    have hlast : rest[20]? = some OP_EQUAL := by simpa using hequal
    have hlt : 20 < rest.length := by omega
    have hdrop : rest.drop 20 = [OP_EQUAL] := by
      rw [getElem?_eq_getElem hlt] at hlast
      rw [drop_eq_getElem_cons hlt, Option.some.inj hlast, drop_eq_nil_of_le (by omega)]
    have hsplit : rest = rest.take 20 ++ [OP_EQUAL] := by
      rw [← hdrop, take_append_drop]
    rw [getSigOpCount_eq, hlen, sigOpsFrom_opcode (by decide), hsplit,
      sigOpsFrom_of_ok (getOp2_push (by decide) (by simp [hrest]) _) rfl,
      sigOpsFrom_opcode (by decide), sigOpsFrom_nil]
    rfl

end Scan

section Instructions

variable {crypto : ScriptCrypto} {flags : UInt32} {checker : SignatureChecker}
  {sigversion : SigVersion}

/-- After an executed `OP_1` to `OP_16` the stack ends with the number that it pushes. -/
def PushedLast (lastOpcode : Opcode) (s : EvalState) : Prop :=
  OP_1 ≤ lastOpcode → lastOpcode ≤ OP_16 → s.vfExec.all id = true →
    s.stack.getLast? = some (scriptNumSerialize (decodeOpN lastOpcode))

lemma ofVch_scriptNumSerialize {n nMaxNumSize : ℕ} {fRequireMinimal : Bool} {bn : ℤ} (hn : n ≤ 16)
    (h : CScriptNum.ofVch (scriptNumSerialize n) fRequireMinimal nMaxNumSize = .ok bn) :
    bn = n := by
  have hset : ∀ k : Fin 17, CScriptNum.setVch (scriptNumSerialize (k : ℕ)) = (k : ℕ) := by
    decide +kernel
  unfold CScriptNum.ofVch at h
  obtain ⟨-, h⟩ := ite_error_eq_ok_iff.mp h
  obtain ⟨-, h⟩ := ite_error_eq_ok_iff.mp h
  rw [← Except.ok.inj h]
  exact hset ⟨n, lt_succ_of_le hn⟩

lemma readKeysCount_le {s s' : EvalState} {nKeysCount : ℕ}
    (h : readKeysCount flags s = .ok nKeysCount s') :
    nKeysCount ≤ MAX_PUBKEYS_PER_MULTISIG ∧
      ∀ n ≤ 16, s.stack.getLast? = some (scriptNumSerialize (n : ℕ)) → nKeysCount = n := by
  obtain ⟨_, t, hneed, h⟩ := run_bind_eq_ok_iff.mp h
  obtain ⟨hlen, rfl⟩ := state_of_needStack hneed
  obtain ⟨bn, t, hread, h⟩ := run_bind_eq_ok_iff.mp h
  obtain ⟨vch, hvch, hnum, rfl⟩ := state_of_readNum hread
  obtain ⟨_, t, hcount, h⟩ := run_bind_eq_ok_iff.mp h
  obtain ⟨hrange, rfl⟩ := scriptErrorIf_eq_ok_iff.mp hcount
  obtain ⟨_, t₁, -, h⟩ := run_bind_eq_ok_iff.mp h
  obtain ⟨_, t₂, -, h⟩ := run_bind_eq_ok_iff.mp h
  obtain ⟨rfl, -⟩ : (CScriptNum.getint bn).toNat = nKeysCount ∧ t₂ = s' := by
    simpa [pure, EStateM.pure] using h
  push Not at hrange
  refine ⟨by omega, ?_⟩
  intro n hn htop
  rw [getLast?_eq_getElem?] at htop
  rw [htop] at hvch
  obtain rfl := Option.some.inj hvch
  obtain rfl := ofVch_scriptNumSerialize hn hnum
  have hint : CScriptNum.getint (n : ℤ) = n := by
    unfold CScriptNum.getint INT_MAX INT_MIN
    split_ifs
    · omega
    · omega
    · rfl
  rw [hint, Int.toNat_natCast]

lemma after_ofAssert {σ α : Type} (x : Option α) (s : σ) :
    after (ofAssert x s : EStateM.Result Interrupt σ α) = s := by
  cases x with
  | none => rfl
  | some a => rfl

lemma spent_after_callCheckSig (vchSig vchPubKey : Bytes) (scriptCode : CScript)
    (m : Metered EvalState) :
    (after (callCheckSig checker sigversion vchSig vchPubKey scriptCode m)).spent ≤ m.spent + 1 := by
  refine spent_after_bind (k := 1) (n := 0) (le_refl _) fun _ m' _ => ?_
  rw [after_ofAssert]
  exact le_refl _

lemma spent_after_multisigLoop (scriptCode : CScript) (nKeysCount : ℕ) :
    ∀ (ikey nSigsCount isig : ℕ) (m : Metered EvalState),
      (after (multisigLoop crypto flags checker sigversion scriptCode nKeysCount ikey nSigsCount isig
        m)).spent ≤ m.spent + nKeysCount := by
  induction nKeysCount with
  | zero =>
    intro ikey nSigsCount isig m
    exact le_refl _
  | succ nKeysCount ih =>
    intro ikey nSigsCount isig m
    unfold multisigLoop
    split_ifs with hsigs
    · exact le_add_right _ _
    · refine spent_after_metered_bind fun vchSig s _ => ?_
      refine spent_after_metered_bind fun vchPubKey s _ => ?_
      refine spent_after_metered_bind fun _ s _ => ?_
      rw [add_comm nKeysCount 1]
      refine spent_after_bind (spent_after_callCheckSig _ _ _ _) fun fOk m' _ => ?_
      by_cases hleft : nKeysCount < if fOk then nSigsCount - 1 else nSigsCount
      · rw [if_pos hleft]
        exact le_add_right _ _
      · rw [if_neg hleft]
        exact ih _ _ _ _

lemma spent_after_evalCheckMultisig (opcode : Opcode) {m : Metered EvalState} {n : ℕ}
    (hkeys : ∀ nKeysCount s, readKeysCount flags m.state = .ok nKeysCount s → nKeysCount ≤ n) :
    (after (evalCheckMultisig crypto flags checker sigversion opcode m)).spent ≤ m.spent + n := by
  refine spent_after_metered_bind fun args s hargs => ?_
  obtain ⟨nKeysCount, t, hread, hargs⟩ := run_bind_eq_ok_iff.mp hargs
  obtain ⟨nSigsCount, t₁, -, hargs⟩ := run_bind_eq_ok_iff.mp hargs
  obtain ⟨vchSigs, t₂, -, hargs⟩ := run_bind_eq_ok_iff.mp hargs
  obtain ⟨t₃, t₄, -, hargs⟩ := run_bind_eq_ok_iff.mp hargs
  obtain ⟨rfl, -⟩ : (⟨nKeysCount, nSigsCount, sigScriptCode sigversion vchSigs t₃.pbegincodehash⟩ :
      MultisigArgs) = args ∧ t₄ = s := by
    simpa [pure, EStateM.pure] using hargs
  refine le_trans ?_ (Nat.add_le_add_left (hkeys nKeysCount t hread) m.spent)
  rw [← add_zero (m.spent + nKeysCount), add_assoc]
  refine spent_after_bind (spent_after_multisigLoop _ _ _ _ _ _) fun fSuccess m' _ => ?_
  exact le_of_eq spent_after_metered

lemma spent_after_evalCheckSig (opcode : Opcode) (m : Metered EvalState) :
    (after (evalCheckSig crypto flags checker sigversion opcode m)).spent ≤ m.spent + 1 := by
  refine spent_after_metered_bind fun args s _ => ?_
  refine spent_after_bind (n := 0) (spent_after_callCheckSig _ _ _ _) fun fSuccess m' _ => ?_
  exact le_of_eq spent_after_metered

lemma spent_after_evalSwitch {lastOpcode : Opcode} {r : CScript.GetOpResult} {fExec : Bool}
    {m : Metered EvalState} (hlast : PushedLast lastOpcode m.state)
    (hexec : fExec = m.state.vfExec.all id)
    (hcond : (fExec || (OP_IF ≤ r.opcodeRet && r.opcodeRet ≤ OP_ENDIF)) = true) :
    (after (evalSwitch crypto flags checker sigversion fExec r m)).spent ≤
      m.spent + sigOpsOf true lastOpcode r.opcodeRet := by
  unfold evalSwitch
  cases hlabel : switchLabel r.opcodeRet with
  | none =>
    dsimp only
    rw [spent_after_metered]
    exact le_add_right _ _
  | some label =>
    cases label with
    | plain block =>
      dsimp only
      rw [spent_after_metered]
      exact le_add_right _ _
    | checkSig =>
      have hop : r.opcodeRet ∈ [OP_CHECKSIG, OP_CHECKSIGVERIFY] :=
        opcode_of_switchLabel hlabel (by decide) (by decide)
      have hone : sigOpsOf true lastOpcode r.opcodeRet = 1 := if_pos (by simpa using hop)
      rw [hone]
      exact spent_after_evalCheckSig _ _
    | checkMultisig =>
      have hop : r.opcodeRet ∈ [OP_CHECKMULTISIG, OP_CHECKMULTISIGVERIFY] :=
        opcode_of_switchLabel hlabel (by decide) (by decide)
      refine spent_after_evalCheckMultisig _ fun nKeysCount s hread => ?_
      obtain ⟨hmax, hsmall⟩ := readKeysCount_le hread
      -- the opcode is no conditional, so it is executed, and the opcode before it was executed too
      have hno : (decide (OP_IF ≤ r.opcodeRet) && decide (r.opcodeRet ≤ OP_ENDIF)) = false := by
        simp only [mem_cons, not_mem_nil, or_false] at hop
        obtain hop | hop := hop
        · rw [hop]
          decide
        · rw [hop]
          decide
      rw [hno, Bool.or_false, hexec] at hcond
      rw [sigOpsOf_checkMultisig hop]
      split_ifs with hn
      · exact le_of_eq (hsmall _ (decodeOpN_le hn.2.2) (hlast hn.2.1 hn.2.2 hcond))
      · exact hmax

lemma spent_after_execute {lastOpcode : Opcode} {r : CScript.GetOpResult} {fExec : Bool}
    {m : Metered EvalState} (hlast : PushedLast lastOpcode m.state)
    (hexec : fExec = m.state.vfExec.all id) :
    (after (execute crypto flags checker sigversion fExec r m)).spent ≤
      m.spent + sigOpsOf true lastOpcode r.opcodeRet := by
  unfold execute
  by_cases hpush : (fExec && decide (r.opcodeRet ≤ OP_PUSHDATA4)) = true
  · rw [if_pos hpush, spent_after_metered]
    exact le_add_right _ _
  · rw [if_neg hpush]
    by_cases hcond : (fExec || (decide (OP_IF ≤ r.opcodeRet) && decide (r.opcodeRet ≤ OP_ENDIF))) = true
    · rw [if_pos hcond]
      exact spent_after_evalSwitch hlast hexec hcond
    · rw [if_neg hcond]
      exact le_add_right _ _

lemma spent_after_evalOp {lastOpcode : Opcode} (r : CScript.GetOpResult) {m : Metered EvalState}
    (hlast : PushedLast lastOpcode m.state) :
    (after (evalOp crypto flags checker sigversion r m)).spent ≤
      m.spent + sigOpsOf true lastOpcode r.opcodeRet := by
  refine spent_after_metered_bind fun fExec s hread => ?_
  obtain ⟨hexec, hs⟩ := state_of_readInstruction hread
  rw [← add_zero (sigOpsOf true lastOpcode r.opcodeRet)]
  refine spent_after_bind ?_ fun _ m' _ => le_of_eq spent_after_metered
  refine spent_after_execute ?_ ?_
  · rw [hs]
    exact hlast
  · rw [hexec, hs]

lemma toNat_of_smallNum {opcode : Opcode}
    (hop : opcode = OP_1NEGATE ∨ (OP_1 ≤ opcode ∧ opcode ≤ OP_16)) :
    79 ≤ opcode.toNat ∧ opcode.toNat ≤ 96 := by
  obtain hop | ⟨hone, hsixteen⟩ := hop
  · rw [hop]
    decide
  · have hone : 81 ≤ opcode.toNat := UInt8.le_iff_toNat_le.mp hone
    have hsixteen : opcode.toNat ≤ 96 := UInt8.le_iff_toNat_le.mp hsixteen
    omega

lemma state_of_execute_pushNum {r : CScript.GetOpResult} {fExec : Bool} {m m' : Metered EvalState}
    (hop : r.opcodeRet = OP_1NEGATE ∨ (OP_1 ≤ r.opcodeRet ∧ r.opcodeRet ≤ OP_16))
    (h : execute crypto flags checker sigversion fExec r m = .ok () m') :
    m'.state.vfExec = m.state.vfExec ∧
      (fExec = true → m'.state.stack = m.state.stack ++
        [scriptNumSerialize ((r.opcodeRet.toNat : ℤ) - ((OP_1.toNat : ℤ) - 1))]) := by
  have hrange := toNat_of_smallNum hop
  have hnoPush : decide (r.opcodeRet ≤ OP_PUSHDATA4) = false := by
    refine decide_eq_false fun hle => ?_
    have hle : r.opcodeRet.toNat ≤ 78 := UInt8.le_iff_toNat_le.mp hle
    omega
  have hnoIf : decide (OP_IF ≤ r.opcodeRet) = false := by
    refine decide_eq_false fun hle => ?_
    have hle : 99 ≤ r.opcodeRet.toNat := UInt8.le_iff_toNat_le.mp hle
    omega
  unfold execute at h
  rw [hnoPush, hnoIf, Bool.and_false, Bool.false_and, Bool.or_false] at h
  cases fExec with
  | false =>
    obtain rfl : m = m' := by simpa [pure, EStateM.pure] using h
    exact ⟨rfl, fun hc => absurd hc Bool.false_ne_true⟩
  | true =>
    have hlabel : switchLabel r.opcodeRet = some (.plain .pushNum) := if_pos hop
    unfold evalSwitch at h
    rw [hlabel, if_neg Bool.false_ne_true, if_pos rfl] at h
    obtain ⟨hblock, -⟩ := metered_eq_ok_iff.mp h
    have hstate : { m.state with stack := m.state.stack ++
        [scriptNumSerialize ((r.opcodeRet.toNat : ℤ) - ((OP_1.toNat : ℤ) - 1))] } = m'.state := by
      simpa [evalBlock, pushBack] using hblock
    rw [← hstate]
    exact ⟨rfl, fun _ => rfl⟩

lemma pushedLast_of_evalOp {r : CScript.GetOpResult} {m m' : Metered EvalState}
    (h : evalOp crypto flags checker sigversion r m = .ok () m') :
    PushedLast r.opcodeRet m'.state := by
  intro hone hsixteen hall
  obtain ⟨fExec, m₁, hread, h⟩ := run_bind_eq_ok_iff.mp h
  obtain ⟨hread, -⟩ := metered_eq_ok_iff.mp hread
  obtain ⟨hexec, hs⟩ := state_of_readInstruction hread
  obtain ⟨_, m₂, h, hsize⟩ := run_bind_eq_ok_iff.mp h
  obtain ⟨hsize, -⟩ := metered_eq_ok_iff.mp hsize
  have hm := state_of_checkStackSize hsize
  rw [← hm] at hall ⊢
  obtain ⟨hsame, hpush⟩ := state_of_execute_pushNum (.inr ⟨hone, hsixteen⟩) h
  have hexec' : fExec = true := by
    rw [hexec, ← hall, hsame, hs]
  rw [hpush hexec', getLast?_append, getLast?_singleton, Option.some_or, decodeOpN_cast hone]

lemma spent_after_forM (ops : List CScript.GetOpResult) :
    ∀ (lastOpcode : Opcode) (m : Metered EvalState), PushedLast lastOpcode m.state →
      (after (ops.forM (evalOp crypto flags checker sigversion) m)).spent ≤
        m.spent + (ops.foldl (sigOpStep true) (0, lastOpcode)).1 := by
  induction ops with
  | nil =>
    intro lastOpcode m _
    exact le_refl _
  | cons r ops ih =>
    intro lastOpcode m hlast
    rw [foldl_cons, sigOpStep_eq, foldl_sigOpStep_add, zero_add]
    refine spent_after_bind (spent_after_evalOp r hlast) fun _ m' hrun => ?_
    exact ih r.opcodeRet m' (pushedLast_of_evalOp hrun)

lemma spent_after_evalScript (stack : List Bytes) (script : CScript) (n : ℕ) :
    after (evalScript crypto flags checker sigversion stack script n) ≤
      n + getSigOpCount script true := by
  have hops : (after (evalOps crypto flags checker sigversion script
      ⟨⟨stack, [], [], 0, script⟩, n⟩)).spent ≤ n + getSigOpCount script true := by
    refine spent_after_metered_bind fun _ s _ => ?_
    rw [← add_zero (getSigOpCount script true)]
    refine spent_after_bind (spent_after_forM _ OP_INVALIDOPCODE _ ?_) fun _ m' _ => ?_
    · intro _ hle
      exact absurd hle (by decide)
    · refine spent_after_metered_bind fun _ s _ => ?_
      exact le_of_eq spent_after_metered
  unfold evalScript
  cases hev : evalOps crypto flags checker sigversion script ⟨⟨stack, [], [], 0, script⟩, n⟩ with
  | ok u m =>
    rw [hev] at hops
    exact hops
  | error e m =>
    rw [hev] at hops
    exact hops

lemma smallNum_inert {opcode : Opcode}
    (hop : opcode = OP_1NEGATE ∨ (OP_1 ≤ opcode ∧ opcode ≤ OP_16)) :
    let vch := scriptNumSerialize ((opcode.toNat : ℤ) - ((OP_1.toNat : ℤ) - 1))
    getSigOpCount vch true = 0 ∧ isWitnessProgram vch = none := by
  have hall : ∀ k : Fin 18,
      getSigOpCount (scriptNumSerialize (((k : ℕ) : ℤ) - 1)) true = 0 ∧
        isWitnessProgram (scriptNumSerialize (((k : ℕ) : ℤ) - 1)) = none := by
    decide +kernel
  have hrange := toNat_of_smallNum hop
  have hvalue : (opcode.toNat : ℤ) - ((OP_1.toNat : ℤ) - 1) = ((opcode.toNat - 79 : ℕ) : ℤ) - 1 := by
    have hone : OP_1.toNat = 81 := rfl
    omega
  rw [hvalue]
  exact hall ⟨opcode.toNat - 79, by omega⟩

lemma stack_of_evalOp_push {r : CScript.GetOpResult} {m m' : Metered EvalState}
    (hop : r.opcodeRet ≤ OP_16) (hexec : m.state.vfExec = [])
    (h : evalOp crypto flags checker sigversion r m = .ok () m') :
    m'.state.vfExec = [] ∧ ∃ vch, m'.state.stack = m.state.stack ++ [vch] ∧
      (vch = r.vchRet ∨
        (getSigOpCount vch true = 0 ∧ isWitnessProgram vch = none)) := by
  obtain ⟨fExec, m₁, hread, h⟩ := run_bind_eq_ok_iff.mp h
  obtain ⟨hread, -⟩ := metered_eq_ok_iff.mp hread
  obtain ⟨hfExec, hs⟩ := state_of_readInstruction hread
  obtain ⟨_, m₂, h, hsize⟩ := run_bind_eq_ok_iff.mp h
  obtain ⟨hsize, -⟩ := metered_eq_ok_iff.mp hsize
  have hm := state_of_checkStackSize hsize
  rw [hexec] at hfExec
  obtain rfl : fExec = true := hfExec
  have hstack : m₁.state.stack = m.state.stack := by rw [hs]
  have hvf : m₁.state.vfExec = [] := by rw [hs, hexec]
  rw [← hm, ← hstack, ← hvf]
  by_cases hpush : r.opcodeRet ≤ OP_PUSHDATA4
  · unfold execute at h
    rw [if_pos (by simpa using hpush)] at h
    obtain ⟨h, -⟩ := metered_eq_ok_iff.mp h
    obtain ⟨_, t, hmin, h⟩ := run_bind_eq_ok_iff.mp h
    obtain ⟨-, rfl⟩ := scriptErrorIf_eq_ok_iff.mp hmin
    have hstate : { m₁.state with stack := m₁.state.stack ++ [r.vchRet] } = m₂.state := by
      simpa [pushBack] using h
    rw [← hstate]
    exact ⟨rfl, r.vchRet, rfl, .inl rfl⟩
  · by_cases hnum : r.opcodeRet = OP_1NEGATE ∨ (OP_1 ≤ r.opcodeRet ∧ r.opcodeRet ≤ OP_16)
    · obtain ⟨hsame, hstate⟩ := state_of_execute_pushNum hnum h
      exact ⟨hsame, _, hstate rfl, .inr (smallNum_inert hnum)⟩
    · -- what is left is `OP_RESERVED`, which has no block
      have hreserved : r.opcodeRet = 0x50 := by
        have hle : r.opcodeRet.toNat ≤ 96 := UInt8.le_iff_toNat_le.mp hop
        have hgt : ¬r.opcodeRet.toNat ≤ 78 := fun hc => hpush (UInt8.le_iff_toNat_le.mpr hc)
        have hneg : r.opcodeRet.toNat ≠ 79 := fun hc => hnum (.inl (UInt8.toNat_inj.mp hc))
        have hone : ¬81 ≤ r.opcodeRet.toNat := fun hc =>
          hnum (.inr ⟨UInt8.le_iff_toNat_le.mpr hc, hop⟩)
        exact UInt8.toNat_inj.mp (show r.opcodeRet.toNat = 80 by omega)
      have hlabel : switchLabel r.opcodeRet = none := by
        rw [hreserved]
        decide
      unfold execute evalSwitch at h
      rw [if_neg (by simpa using hpush), if_pos (Bool.true_or _), hlabel] at h
      obtain ⟨h, -⟩ := metered_eq_ok_iff.mp h
      cases h

lemma top_of_forM_push (ops : List CScript.GetOpResult) :
    ∀ m m' : Metered EvalState, (∀ r ∈ ops, r.opcodeRet ≤ OP_16) → m.state.vfExec = [] →
      ops.forM (evalOp crypto flags checker sigversion) m = .ok () m' →
        ∀ r, ops.getLast? = some r → ∃ vch, m'.state.stack.getLast? = some vch ∧
          (vch = r.vchRet ∨
            (getSigOpCount vch true = 0 ∧ isWitnessProgram vch = none)) := by
  induction ops with
  | nil =>
    intro m m' _ _ _ r hr
    exact Option.noConfusion rfl (heq_of_eq hr)
  | cons r₀ ops ih =>
    intro m m' hops hexec hrun r hr
    obtain ⟨_, m₁, hstep, hrun⟩ := run_bind_eq_ok_iff.mp hrun
    obtain ⟨hexec₁, vch, hstack, hvch⟩ :=
      stack_of_evalOp_push (hops r₀ mem_cons_self) hexec hstep
    cases ops with
    | nil =>
      obtain rfl : r₀ = r := by simpa using hr
      obtain rfl : m₁ = m' := by simpa [pure, EStateM.pure] using hrun
      exact ⟨vch, by rw [hstack, getLast?_append, getLast?_singleton, Option.some_or], hvch⟩
    | cons r₁ ops =>
      rw [getLast?_cons_cons] at hr
      exact ih m₁ m' (fun r' hr' => hops r' (mem_cons_of_mem _ hr')) hexec₁ hrun r hr

lemma redeemScript_of_isPushOnly {scriptSig : CScript} {stackCopy : List Bytes} {pubKey2 : CScript}
    {n n' : ℕ} (hpush : isPushOnly scriptSig = true)
    (hrun : evalScript crypto flags checker sigversion [] scriptSig n = .ok stackCopy n')
    (hlast : stackCopy.getLast? = some pubKey2) :
    pubKey2 = lastPush scriptSig ∨
      (getSigOpCount pubKey2 true = 0 ∧ isWitnessProgram pubKey2 = none) := by
  unfold isPushOnly at hpush
  simp only [Bool.and_eq_true, all_eq_true, decide_eq_true_eq] at hpush
  unfold evalScript at hrun
  cases hev : evalOps crypto flags checker sigversion scriptSig ⟨⟨[], [], [], 0, scriptSig⟩, n⟩ with
  | error e m =>
    rw [hev] at hrun
    exact EStateM.Result.noConfusion rfl rfl rfl (heq_of_eq hrun)
  | ok u m =>
    rw [hev] at hrun
    obtain ⟨rfl, -⟩ : m.state.stack = stackCopy ∧ m.spent = n' := by simpa using hrun
    obtain ⟨_, t, h₁, hev⟩ := run_bind_eq_ok_iff.mp hev
    obtain ⟨h₁, -⟩ := metered_eq_ok_iff.mp h₁
    obtain ⟨-, ht⟩ := scriptErrorIf_eq_ok_iff.mp h₁
    obtain ⟨_, t₁, hops, hev⟩ := run_bind_eq_ok_iff.mp hev
    obtain ⟨_, t₂, h₂, h₃⟩ := run_bind_eq_ok_iff.mp hev
    obtain ⟨h₂, -⟩ := metered_eq_ok_iff.mp h₂
    obtain ⟨-, ht₂⟩ := scriptErrorIf_eq_ok_iff.mp h₂
    obtain ⟨h₃, -⟩ := metered_eq_ok_iff.mp h₃
    obtain ⟨-, ht₃⟩ := scriptErrorIf_eq_ok_iff.mp h₃
    rw [← ht₃, ← ht₂] at hlast
    cases hget : (scan scriptSig).ops.getLast? with
    | none =>
      rw [getLast?_eq_none_iff.mp hget] at hops
      obtain rfl : t = t₁ := by simpa [pure, EStateM.pure] using hops
      rw [← ht] at hlast
      exact Option.noConfusion rfl (heq_of_eq hlast)
    | some r =>
      obtain ⟨vch, hvch, hcases⟩ := top_of_forM_push _ t t₁ hpush.2 (by rw [← ht]) hops r hget
      rw [hlast] at hvch
      obtain rfl := Option.some.inj hvch
      unfold lastPush
      rw [hget]
      exact hcases

end Instructions

section Programs

variable {crypto : ScriptCrypto} {flags : UInt32} {checker : SignatureChecker}

lemma after_failIf {σ : Type} (c : Prop) [Decidable c] (e : ScriptError) (s : σ) :
    after (scriptErrorIf c e s : EStateM.Result Interrupt σ Unit) = s := by
  unfold scriptErrorIf stopIf
  split_ifs
  · rfl
  · rfl

lemma after_ofReturned {σ α : Type} (x : Except ScriptError α) (s : σ) :
    after (ofReturned x s : EStateM.Result Interrupt σ α) = s := by
  cases x with
  | error e => rfl
  | ok a => rfl

lemma after_requireTrue (stack : List Bytes) (n : ℕ) : after (requireTrue stack n) = n := by
  unfold requireTrue
  cases stack.getLast? with
  | none => rfl
  | some back => exact after_failIf _ _ _

lemma getSigOpCount_witnessScript {witness : List Bytes} {program : Bytes} {start : List Bytes × CScript}
    (h : witnessScript crypto witness program = .ok start) :
    getSigOpCount start.2 true ≤ witnessSigOps 0 program witness := by
  unfold witnessScript at h
  unfold witnessSigOps
  rw [if_pos rfl]
  by_cases hscript : program.length = 32
  · rw [if_pos hscript] at h
    cases hlast : witness.getLast? with
    | none =>
      rw [hlast] at h
      exact Except.noConfusion rfl rfl (heq_of_eq h)
    | some scriptPubKey =>
      have hne : witness ≠ [] := by
        rintro rfl
        exact Option.noConfusion rfl (heq_of_eq hlast)
      rw [hlast] at h
      dsimp only at h
      split_ifs at h with hhash
      rw [← Except.ok.inj h, if_neg (by omega), if_pos ⟨hscript, hne⟩, getLastD_eq_getLast?, hlast]
      exact le_refl _
  · rw [if_neg hscript] at h
    split_ifs at h with hkey htwo
    rw [← Except.ok.inj h, if_pos hkey, getSigOpCount_payToPubKeyHash hkey]

lemma after_verifyWitnessProgram (witness : List Bytes) (witversion : ℕ) (program : Bytes) (n : ℕ) :
    after (verifyWitnessProgram crypto flags checker witness witversion program n) ≤
      n + witnessSigOps witversion program witness := by
  unfold verifyWitnessProgram
  split_ifs with hversion
  · rw [hversion]
    refine cost_after_bind_of_after_eq id (after_ofReturned _ _) fun start hstart => ?_
    obtain ⟨hscript, -⟩ := state_of_ofReturned hstart
    refine cost_after_bind_of_after_eq id (after_failIf _ _ _) fun _ _ => ?_
    refine le_trans ?_ (Nat.add_le_add_left (getSigOpCount_witnessScript hscript) n)
    rw [← add_zero (getSigOpCount start.2 true)]
    refine cost_after_bind id (spent_after_evalScript _ _ _) fun stack n' _ => ?_
    refine cost_after_bind_of_after_eq id (after_failIf _ _ _) fun _ _ => ?_
    exact le_of_eq (after_requireTrue _ _)
  · rw [after_failIf]
    exact le_add_right _ _

lemma after_verifyProgramOf {script : CScript} {witness : List Bytes} {fMalleated : Bool}
    {eMalleated : ScriptError} {stack : List Bytes} {n k : ℕ}
    (hk : ∀ version program, isWitnessProgram script = some (version, program) →
      fMalleated = false → witnessSigOps version program witness ≤ k) :
    after (verifyProgramOf crypto flags checker script witness fMalleated eMalleated stack n) ≤ n + k := by
  unfold verifyProgramOf
  cases hprogram : isWitnessProgram script with
  | none => exact le_add_right _ _
  | some program =>
    obtain ⟨version, program⟩ := program
    dsimp only
    split_ifs with hflag
    · refine cost_after_bind_of_after_eq id (after_failIf _ _ _) fun _ hfail => ?_
      obtain ⟨hmalleated, -⟩ := scriptErrorIf_eq_ok_iff.mp hfail
      refine le_trans ?_
        (Nat.add_le_add_left (hk version program hprogram (Bool.eq_false_of_not_eq_true hmalleated)) n)
      rw [← add_zero (witnessSigOps version program witness)]
      exact cost_after_bind id (after_verifyWitnessProgram _ _ _ _) fun _ n' _ => le_refl n'
    · exact le_add_right _ _

lemma after_verifyClean (witness : List Bytes) (hadWitness : Bool) (stack : List Bytes) (n : ℕ) :
    after (verifyClean flags witness hadWitness stack n) ≤ n := by
  refine cost_after_bind (k := 0) (n := 0) id ?_ fun _ n' _ => ?_
  · unfold verifyCleanStack
    by_cases hflag : hasFlag flags SCRIPT_VERIFY_CLEANSTACK = true
    · rw [if_pos hflag]
      refine cost_after_bind_of_after_eq id (after_ofAssert _ _) fun _ _ => ?_
      refine cost_after_bind_of_after_eq id (after_ofAssert _ _) fun _ _ => ?_
      exact le_of_eq (after_failIf _ _ _)
    · rw [if_neg hflag]
      exact le_refl _
  · unfold verifyWitnessUsed
    by_cases hflag : hasFlag flags SCRIPT_VERIFY_WITNESS = true
    · rw [if_pos hflag]
      refine cost_after_bind_of_after_eq id (after_ofAssert _ _) fun _ _ => ?_
      exact le_of_eq (after_failIf _ _ _)
    · rw [if_neg hflag]
      exact le_refl _

lemma lastPush_pushData {data : Bytes} (h : data.length ≤ 42) :
    lastPush (pushData [] data) = data := by
  have hsize : (UInt8.ofNat data.length).toNat = data.length := by
    rw [UInt8.toNat_ofNat']
    omega
  have hscript : pushData [] data = UInt8.ofNat data.length :: (data ++ []) := by
    unfold pushData
    rw [if_pos (show data.length < OP_PUSHDATA1.toNat from lt_of_le_of_lt h (by decide)), append_nil]
    rfl
  have hlt : UInt8.ofNat data.length < OP_PUSHDATA1 := by
    refine UInt8.lt_iff_toNat_lt.mpr ?_
    rw [hsize]
    exact show data.length < 76 by omega
  have hget := getOp2_push hlt hsize.symm []
  unfold lastPush scan
  rw [hscript, scanOps, hget]
  simp [scanOps, getOp2]

lemma length_of_isWitnessProgram {script : CScript} {program : ℕ × Bytes}
    (h : isWitnessProgram script = some program) : script.length ≤ 42 := by
  unfold isWitnessProgram at h
  split at h
  · split_ifs at h with hlen
    omega
  · exact Option.noConfusion rfl (heq_of_eq h)

lemma after_verifyRedeemScript {scriptSig scriptPubKey : CScript} {witness stackCopy : List Bytes}
    {n₀ n₁ : ℕ} (hhash : isPayToScriptHash scriptPubKey = true)
    (hsig : evalScript crypto flags checker .SIGVERSION_BASE [] scriptSig n₀ = .ok stackCopy n₁) (n : ℕ) :
    after (verifyRedeemScript crypto flags checker scriptSig witness stackCopy n) ≤
      n + (CScript.getSigOpCountP2SH scriptPubKey scriptSig +
        CScript.countWitnessSigOps scriptSig scriptPubKey witness) := by
  refine cost_after_bind_of_after_eq id (after_failIf _ _ _) fun _ hpush => ?_
  obtain ⟨hpush, -⟩ := scriptErrorIf_eq_ok_iff.mp hpush
  simp only [Bool.not_eq_true', Bool.not_eq_false] at hpush
  refine cost_after_bind_of_after_eq id (after_ofAssert _ _) fun pubKey2 hlast => ?_
  obtain ⟨hlast, -⟩ := state_of_ofAssert hlast
  have hredeem := redeemScript_of_isPushOnly hpush hsig hlast
  have hcount : getSigOpCountP2SH scriptPubKey scriptSig =
      getSigOpCount (lastPush scriptSig) true := by
    unfold getSigOpCountP2SH
    rw [hhash, hpush]
    rfl
  rw [hcount]
  refine cost_after_bind id (le_trans (spent_after_evalScript _ _ _) ?_) fun stack n' _ => ?_
  · refine Nat.add_le_add_left ?_ n
    obtain rfl | ⟨hzero, -⟩ := hredeem
    · exact le_refl _
    · rw [hzero]
      exact zero_le _
  · refine cost_after_bind_of_after_eq id (after_requireTrue _ _) fun _ _ => ?_
    refine after_verifyProgramOf fun version program hprogram hmalleated => ?_
    have hscriptSig : scriptSig = pushData [] pubKey2 := by
      simpa using hmalleated
    have hpushed : lastPush scriptSig = pubKey2 := by
      rw [hscriptSig]
      exact lastPush_pushData (length_of_isWitnessProgram hprogram)
    unfold CScript.countWitnessSigOps
    rw [isWitnessProgram_of_isPayToScriptHash hhash, hhash, hpush, hpushed, hprogram]
    exact le_refl _

lemma after_verifyPrograms {scriptSig scriptPubKey : CScript} {witness stackCopy : List Bytes}
    {n₀ n₁ : ℕ} (hsig : evalScript crypto flags checker .SIGVERSION_BASE [] scriptSig n₀ = .ok stackCopy n₁)
    (stack : List Bytes) (n : ℕ) :
    after (verifyPrograms crypto flags checker scriptSig scriptPubKey witness stackCopy stack n) ≤
      n + ((if CScript.isPayToScriptHash scriptPubKey then
          CScript.getSigOpCountP2SH scriptPubKey scriptSig else 0) +
        CScript.countWitnessSigOps scriptSig scriptPubKey witness) := by
  by_cases hhash : CScript.isPayToScriptHash scriptPubKey = true
  · have hnone := isWitnessProgram_of_isPayToScriptHash hhash
    rw [if_pos hhash, ← zero_add (getSigOpCountP2SH _ _ + _)]
    refine cost_after_bind id (after_verifyProgramOf fun version program hprogram _ => ?_) fun bare n' _ => ?_
    · rw [hnone] at hprogram
      exact Option.noConfusion rfl (heq_of_eq hprogram)
    · split_ifs
      · rw [← add_zero (getSigOpCountP2SH _ _ + _)]
        refine cost_after_bind id (after_verifyRedeemScript hhash hsig n') fun redeemed n'' _ => ?_
        exact after_verifyClean _ _ _ _
      · exact le_trans (after_verifyClean _ _ _ _) (le_add_right _ _)
  · rw [if_neg hhash, zero_add, ← add_zero (CScript.countWitnessSigOps _ _ _)]
    refine cost_after_bind id (after_verifyProgramOf fun version program hprogram _ => ?_) fun bare n' _ => ?_
    · unfold CScript.countWitnessSigOps
      rw [hprogram]
    · rw [if_neg (by simp [hhash])]
      exact after_verifyClean _ _ _ _

/-- The scripts of an input have as many signature operations as `VerifyScript` checks signatures, or
more; and the accurate count is at most the other one. -/
theorem verifyScript_nCheckSig_le (scriptSig scriptPubKey : CScript) (witness : List Bytes)
    (script : CScript) (hp2sh : hasFlag flags SCRIPT_VERIFY_P2SH = true)
    (hwitness : hasFlag flags SCRIPT_VERIFY_WITNESS = true) :
    (∃ nWitness, countWitnessSigOps scriptSig scriptPubKey witness flags = some nWitness ∧
      (verifyScript crypto flags checker scriptSig scriptPubKey witness).nCheckSig ≤
        getSigOpCount scriptSig true + getSigOpCountP2SH scriptPubKey scriptSig +
          nWitness) ∧
    CScript.getSigOpCount script true ≤ CScript.getSigOpCount script false := by
  refine ⟨?_, getSigOpCount_accurate_le script⟩
  have hcount : countWitnessSigOps scriptSig scriptPubKey witness flags =
      some (CScript.countWitnessSigOps scriptSig scriptPubKey witness) := by
    unfold countWitnessSigOps
    rw [hp2sh, hwitness]
    rfl
  refine ⟨_, hcount, ?_⟩
  rw [verifyScript_nCheckSig, add_assoc, ← zero_add (_ + _)]
  refine cost_after_bind_of_after_eq id (after_failIf _ _ _) fun _ _ => ?_
  refine cost_after_bind id (spent_after_evalScript _ _ _) fun stackCopy n₁ hsig => ?_
  have hsplit : getSigOpCountP2SH scriptPubKey scriptSig =
      getSigOpCount scriptPubKey true +
        if isPayToScriptHash scriptPubKey then
          getSigOpCountP2SH scriptPubKey scriptSig else 0 := by
    by_cases hhash : isPayToScriptHash scriptPubKey = true
    · rw [if_pos hhash, getSigOpCount_of_isPayToScriptHash hhash, zero_add]
    · rw [if_neg hhash, getSigOpCountP2SH, if_pos (by simp [hhash]), add_zero]
  rw [hsplit, add_assoc]
  refine cost_after_bind id (spent_after_evalScript _ _ _) fun stack n₂ _ => ?_
  refine cost_after_bind_of_after_eq id (after_requireTrue _ _) fun _ _ => ?_
  exact after_verifyPrograms hsig stack n₂

/-- One of two keys, which `OP_CHECKMULTISIG` tries both. -/
def oneOfTwo : CScript := [OP_1, 1, 2, 1, 3, 0x52, OP_CHECKMULTISIG]

theorem verifyScript_nCheckSig_le_oneOfTwo :
    let flags := SCRIPT_VERIFY_P2SH ||| SCRIPT_VERIFY_WITNESS
    (verifyScript sha256Only flags refusingChecker [OP_0, 1, 9] oneOfTwo []).nCheckSig = 2 ∧
    (∃ nWitness, countWitnessSigOps [OP_0, 1, 9] oneOfTwo [] flags = some nWitness ∧
      (verifyScript sha256Only flags refusingChecker [OP_0, 1, 9] oneOfTwo []).nCheckSig ≤
        getSigOpCount [OP_0, 1, 9] true + getSigOpCountP2SH oneOfTwo [OP_0, 1, 9] +
          nWitness) ∧
    getSigOpCount oneOfTwo true ≤ getSigOpCount oneOfTwo false :=
  ⟨by decide +kernel, verifyScript_nCheckSig_le _ _ _ _ (by decide) (by decide)⟩

end Programs

end MutableBitcoin
