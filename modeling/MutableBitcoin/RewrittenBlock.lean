import MutableBitcoin.BlockFile
import MutableBitcoin.ConnectSafety
import Mathlib.Algebra.Order.BigOperators.Group.List

/-!
# The rewritten block as a block

`CheckBlockUChain` runs `CheckBlock` on the block it has put the redacted transaction into, and
writes it whatever the answer is.
-/

namespace MutableBitcoin
open Lib CChamHash List CScript UInt8

section Filler

lemma scanOps_nil (fuel : ℕ) : (scanOps fuel []).ops = [] := by
  cases fuel <;> rfl

lemma getOperand_self (opcode : Opcode) (b : Bytes) :
    getOperand opcode b.length b = ⟨true, opcode, b, []⟩ := by
  simp [getOperand]

lemma getOp2_sized {opcode : Opcode} {size b : Bytes} (hle : opcode ≤ Opcode.OP_PUSHDATA4)
    (hge : ¬opcode < Opcode.OP_PUSHDATA1)
    (hsize : size.length =
      if opcode = Opcode.OP_PUSHDATA1 then 1 else if opcode = Opcode.OP_PUSHDATA2 then 2 else 4)
    (hval : leValue size = b.length) :
    getOp2 (opcode :: (size ++ b)) = ⟨true, opcode, b, []⟩ := by
  unfold getOp2
  simp only [hle, hge, if_true, if_false, ← hsize, take_left, drop_left, hval,
    getOperand_self]
  rw [if_neg (by rw [length_append]; omega)]

lemma getOp2_pushData {b : Bytes} (h : b.length < 2 ^ 32) :
    ∃ opcode, opcode ≤ Opcode.OP_PUSHDATA4 ∧
      getOp2 (pushData [] b) = ⟨true, opcode, b, []⟩ := by
  have h76 : Opcode.OP_PUSHDATA1.toNat = 76 := rfl
  have h78 : Opcode.OP_PUSHDATA4.toNat = 78 := rfl
  unfold pushData
  split_ifs with h₁ h₂ h₃
  · have hlt : b.length % 256 = b.length := Nat.mod_eq_of_lt (by omega)
    have hle : UInt8.ofNat b.length ≤ Opcode.OP_PUSHDATA4 := by
      rw [le_iff_toNat_le, toNat_ofNat', h78]
      omega
    have hpush : UInt8.ofNat b.length < Opcode.OP_PUSHDATA1 := by
      rw [lt_iff_toNat_lt, toNat_ofNat', h76]
      omega
    refine ⟨UInt8.ofNat b.length, hle, ?_⟩
    simp only [nil_append, singleton_append, getOp2, hle, hpush, if_true,
      toNat_ofNat', hlt, getOperand_self]
  · refine ⟨Opcode.OP_PUSHDATA1, by decide, getOp2_sized (by decide) (by decide) rfl ?_⟩
    rw [leValue_cons, leValue_nil, toNat_ofNat']
    omega
  · exact ⟨Opcode.OP_PUSHDATA2, by decide, getOp2_sized (by decide) (by decide)
      (length_leBytes 2 _) (leValue_leBytes (by omega))⟩
  · exact ⟨Opcode.OP_PUSHDATA4, by decide, getOp2_sized (by decide) (by decide)
      (length_leBytes 4 _) (leValue_leBytes (by omega))⟩

lemma sigOpStep_of_lt {r : CScript.GetOpResult} (h : r.opcodeRet < Opcode.OP_CHECKSIG)
    (acc : ℕ × Opcode) : sigOpStep false acc r = (acc.1, r.opcodeRet) := by
  have hne : ∀ opcode : Opcode, Opcode.OP_CHECKSIG ≤ opcode → r.opcodeRet ≠ opcode := by
    rintro opcode hle rfl
    exact absurd h (UInt8.not_lt.mpr hle)
  simp only [sigOpStep, hne Opcode.OP_CHECKSIG (by decide),
    hne Opcode.OP_CHECKSIGVERIFY (by decide), hne Opcode.OP_CHECKMULTISIG (by decide),
    hne Opcode.OP_CHECKMULTISIGVERIFY (by decide), or_self, if_false]

lemma getSigOpCount_redactedScript (op : RedactOp) {szO : ℕ} (h : szO < 2 ^ 32) :
    getSigOpCount (redactedScript op szO) false = 0 := by
  obtain ⟨opcode, hle, hop⟩ := getOp2_pushData (b := List.replicate (szO - 2) op.fillerByte)
    (by rw [length_replicate]; omega)
  have hscript : redactedScript op szO = Opcode.OP_RETURN ::
      pushData [] (List.replicate (szO - 2) op.fillerByte) := by
    rw [redactedScript_eq]
    simp [pushData]
  have hret : ∀ pc, getOp2 (Opcode.OP_RETURN :: pc) = ⟨true, Opcode.OP_RETURN, [], pc⟩ := by
    intro pc
    simp [getOp2, Opcode.OP_RETURN, Opcode.OP_PUSHDATA4]
  unfold getSigOpCount scan
  rw [hscript, length_cons, scanOps, hret]
  simp only [if_true]
  rw [scanOps, hop]
  simp only [if_true, scanOps_nil, foldl_cons, foldl_nil]
  rw [sigOpStep_of_lt, sigOpStep_of_lt]
  · show Opcode.OP_RETURN < Opcode.OP_CHECKSIG
    decide
  · exact UInt8.lt_of_le_of_lt hle (by decide)

end Filler

section Commitment

lemma isWitnessCommitment_redactedScript (op : RedactOp) (szO : ℕ) :
    isWitnessCommitment (redactedScript op szO) = false := by
  rw [redactedScript_eq]
  unfold isWitnessCommitment pushData
  generalize hn : szO - 2 = n
  simp only [length_replicate]
  split_ifs with h₁ h₂ h₃
  · cases n with
    | zero => rfl
    | succ n => cases op <;> simp [replicate_succ, List.isPrefixOf, RedactOp.fillerByte]
  · simp [List.isPrefixOf, Opcode.OP_PUSHDATA1]
  · simp [List.isPrefixOf, Opcode.OP_PUSHDATA2]
  · simp [List.isPrefixOf, Opcode.OP_PUSHDATA4]

lemma isOpReturn_of_isWitnessCommitment {script : CScript} (h : isWitnessCommitment script = true) :
    isOpReturn script = true := by
  unfold isWitnessCommitment at h
  cases script with
  | nil => simp at h
  | cons b script =>
    simp only [Bool.and_eq_true, List.isPrefixOf, beq_iff_eq] at h
    simp [isOpReturn, h.2.1]

def lastCommitment (vout : List CTxOut) : Option ℕ :=
  (vout.zipIdx.filter (fun o => isWitnessCommitment o.1.scriptPubKey)).getLast?.map (·.2)

lemma lastCommitment_append (vout : List CTxOut) (txout : CTxOut) :
    lastCommitment (vout ++ [txout]) =
      if isWitnessCommitment txout.scriptPubKey then some vout.length else lastCommitment vout := by
  unfold lastCommitment
  rw [zipIdx_append, filter_append]
  cases h : isWitnessCommitment txout.scriptPubKey with
  | true => simp [h]
  | false => simp [h]

lemma lastCommitment_eq_none {vout : List CTxOut}
    (h : ∀ txout ∈ vout, isOpReturn txout.scriptPubKey = false) : lastCommitment vout = none := by
  unfold lastCommitment
  rw [Option.map_eq_none_iff, getLast?_eq_none_iff, filter_eq_nil_iff]
  rintro ⟨txout, j⟩ hmem hc
  have hop := h txout (fst_mem_of_mem_zipIdx hmem)
  rw [isOpReturn_of_isWitnessCommitment hc] at hop
  cases hop

lemma setScriptPubKey_append_of_lt {vout : List CTxOut} {k : ℕ} (hk : k < vout.length)
    (txout : CTxOut) (script : CScript) :
    setScriptPubKey (vout ++ [txout]) k script = setScriptPubKey vout k script ++ [txout] := by
  unfold setScriptPubKey
  induction vout generalizing k with
  | nil => simp at hk
  | cons o vout ih =>
    cases k with
    | zero => rfl
    | succ k =>
      rw [cons_append, modify_succ_cons, modify_succ_cons, cons_append,
        ih (by simpa using hk)]

lemma setScriptPubKey_append_length (vout : List CTxOut) (txout : CTxOut) (script : CScript) :
    setScriptPubKey (vout ++ [txout]) vout.length script =
      vout ++ [{ txout with scriptPubKey := script }] := by
  unfold setScriptPubKey
  induction vout with
  | nil => rfl
  | cons o vout ih => rw [cons_append, length_cons, modify_succ_cons, ih, cons_append]

lemma lastCommitment_setScriptPubKey_of_ne {vout : List CTxOut} {k : ℕ} {script : CScript}
    (hk : k < vout.length) (hs : isWitnessCommitment script = false)
    (h : lastCommitment vout ≠ some k) :
    lastCommitment (setScriptPubKey vout k script) = lastCommitment vout := by
  induction vout using List.reverseRecOn with
  | nil => simp at hk
  | append_singleton vout txout ih =>
    by_cases hlt : k < vout.length
    · rw [setScriptPubKey_append_of_lt hlt, lastCommitment_append, lastCommitment_append]
      rw [lastCommitment_append] at h
      split_ifs with hc
      · simp [setScriptPubKey]
      · rw [if_neg hc] at h
        exact ih hlt h
    · obtain rfl : k = vout.length := by
        rw [length_append, length_singleton] at hk
        omega
      rw [lastCommitment_append] at h
      rw [setScriptPubKey_append_length, lastCommitment_append, lastCommitment_append, if_neg (by simp [hs])]
      split_ifs at h ⊢ with hc
      · exact absurd rfl h
      · rfl

lemma lastCommitment_setScriptPubKey_self {vout : List CTxOut} {k : ℕ} {script : CScript}
    (hk : firstOpReturn vout = some k) (hs : isWitnessCommitment script = false)
    (h : lastCommitment vout = some k) :
    lastCommitment (setScriptPubKey vout k script) = none := by
  obtain ⟨hlt, -, hbefore⟩ := findIdx?_eq_some_iff_getElem.mp hk
  clear hk
  induction vout using List.reverseRecOn with
  | nil => simp at hlt
  | append_singleton vout txout ih =>
    by_cases hlt' : k < vout.length
    · rw [setScriptPubKey_append_of_lt hlt', lastCommitment_append]
      rw [lastCommitment_append] at h
      split_ifs at h ⊢ with hc
      · obtain rfl := Option.some.inj h
        omega
      · refine ih h hlt' ?_
        intro j hj
        have := hbefore j hj
        rwa [getElem_append_left (by omega)] at this
    · obtain rfl : k = vout.length := by
        rw [length_append, length_singleton] at hlt
        omega
      rw [setScriptPubKey_append_length, lastCommitment_append, if_neg (by simp [hs])]
      apply lastCommitment_eq_none
      intro o ho
      obtain ⟨j, hj, rfl⟩ := getElem_of_mem ho
      have := hbefore j hj
      rw [getElem_append_left hj] at this
      simpa using this

end Commitment

section Accepted

variable {sha256 : Bytes → Uint256} {block : CBlock sha256} {params : ConsensusParams}
  {ctx : BlockContext}

/-- Accepted by `CheckBlock` and `ContextualCheckBlock`. -/
def CBlock.Valid (block : CBlock sha256) (params : ConsensusParams) (ctx : BlockContext) : Prop :=
  (∃ block', checkBlock block params true true = .ok block') ∧
    contextualCheckBlock block params ctx = .ok ()

lemma valid_of_isOk (hcheck : (checkBlock block params true true).isOk = true)
    (hctx : (contextualCheckBlock block params ctx).isOk = true) : block.Valid params ctx := by
  constructor
  · cases hc : checkBlock block params true true with
    | ok b => exact ⟨b, rfl⟩
    | error e => simp [hc, Except.isOk, Except.toBool] at hcheck
  · cases hc : contextualCheckBlock block params ctx with
    | ok u => rfl
    | error e => simp [hc, Except.isOk, Except.toBool] at hctx

/-- The conditions of `CheckBlock` on the transactions. -/
structure TransactionsOk (vtx : List (CTransaction sha256)) : Prop where
  nonempty : vtx ≠ []
  length : vtx.length * WITNESS_SCALE_FACTOR ≤ MAX_BLOCK_WEIGHT
  coinbase : vtx.head?.any (·.isCoinBase) = true
  others : vtx.tail.any (·.isCoinBase) = false
  checked : ∀ tx ∈ vtx, checkTransaction tx.toCMutableTransaction false = .ok ()
  sigOps : (vtx.map (fun tx => getLegacySigOpCount tx.toCMutableTransaction)).sum *
    WITNESS_SCALE_FACTOR ≤ MAX_BLOCK_SIGOPS_COST

lemma exists_checkBlock_iff (hf : block.fChecked = false) :
    (∃ block', checkBlock block params true true = .ok block') ↔
      checkProofOfWork (block.toCBlockHeader.getHash sha256) block.nBits params = true ∧
      blockMerkleRoot block = (block.hashMerkleRoot, false) ∧
      block.getSerializeSize strippedStream * WITNESS_SCALE_FACTOR ≤ MAX_BLOCK_WEIGHT ∧
      TransactionsOk block.vtx := by
  have hroot : checkMerkleRoot block = .ok () ↔
      blockMerkleRoot block = (block.hashMerkleRoot, false) := by
    simp only [checkMerkleRoot, unit_bind_eq_ok_iff, rejectIf_eq_ok_iff, bne_eq_false_iff_eq]
    rw [Prod.ext_iff]
    exact and_congr eq_comm Iff.rfl
  simp only [checkBlock, hf, Bool.false_eq_true, if_false, if_true, unit_bind_eq_ok_iff, hroot,
    checkBlockHeader, rejectIf_eq_ok_iff, Bool.true_and, Bool.not_eq_false', Bool.or_eq_false_iff,
    decide_eq_false_iff_not, not_lt, forM_eq_ok_iff, isEmpty_eq_false_iff]
  constructor
  · rintro ⟨block', hpow, hmerkle, ⟨⟨hne, hlen⟩, hsize⟩, hcb, hothers, htx, hsig, -⟩
    exact ⟨hpow, hmerkle, hsize, hne, hlen, hcb, hothers, htx, hsig⟩
  · rintro ⟨hpow, hmerkle, hsize, h⟩
    exact ⟨_, hpow, hmerkle, ⟨⟨h.nonempty, h.length⟩, hsize⟩, h.coinbase, h.others, h.checked,
      h.sigOps, rfl⟩

def lockTimeCutoff (block : CBlockHeader) (ctx : BlockContext) : ℤ :=
  if ctx.fCSV then ctx.medianTimePast else block.nTime.toNat

def witnessAnswer (block : CBlock sha256) (ctx : BlockContext) : Except Reject Bool :=
  if ctx.fSegwit then checkWitnessCommitment block else .ok false

lemma contextualCheckBlock_iff :
    contextualCheckBlock block params ctx = .ok () ↔
      block.vtx.any (fun tx => !isFinalTx tx.toCMutableTransaction ctx.nHeight
        (lockTimeCutoff block.toCBlockHeader ctx)) = false ∧
      (params.BIP34Height ≤ ctx.nHeight → (pushInt64 [] ctx.nHeight).isPrefixOf
        (coinbaseInput block).scriptSig = true) ∧
      (∃ fHaveWitness, witnessAnswer block ctx = .ok fHaveWitness ∧
        (fHaveWitness = false → block.vtx.any (·.hasWitness) = false)) ∧
      getBlockWeight block ≤ MAX_BLOCK_WEIGHT := by
  have hheight : ∀ b : Bool, (decide (params.BIP34Height ≤ ctx.nHeight) && !b) = false ↔
      (params.BIP34Height ≤ ctx.nHeight → b = true) := by
    intro b
    cases b <;> simp
  simp only [contextualCheckBlock, unit_bind_eq_ok_iff, rejectIf_eq_ok_iff, hheight]
  rw [bind_eq_ok_iff]
  simp only [unit_bind_eq_ok_iff, rejectIf_eq_ok_iff, decide_eq_false_iff_not, not_lt]
  refine and_congr Iff.rfl (and_congr Iff.rfl ?_)
  constructor
  · rintro ⟨fHave, hans, hwit, hweight⟩
    refine ⟨⟨fHave, hans, ?_⟩, hweight⟩
    rintro rfl
    simpa using hwit
  · rintro ⟨⟨fHave, hans, hwit⟩, hweight⟩
    refine ⟨fHave, hans, ?_, hweight⟩
    cases fHave with
    | true => rfl
    | false => simpa using hwit rfl

end Accepted

section Transaction

variable {sha256 : Bytes → Uint256} {op : RedactOp} {oldTX newTX : CTransaction sha256} {k : ℕ}
  {txout : CTxOut}

lemma RedactsTo.isFinalTx_eq (h : RedactsTo op oldTX newTX k txout) (nBlockHeight : ℕ)
    (nBlockTime : ℤ) :
    isFinalTx newTX.toCMutableTransaction nBlockHeight nBlockTime =
      isFinalTx oldTX.toCMutableTransaction nBlockHeight nBlockTime := by
  unfold isFinalTx
  rw [h.nLockTime_eq, h.vin_eq]

lemma RedactsTo.length_script_le (h : RedactsTo op oldTX newTX k txout) :
    txout.scriptPubKey.length ≤ oldTX.getSerializeSize strippedStream := by
  have hmem := mem_of_getElem? h.output
  have hsub : txout.scriptPubKey.length ≤ (oldTX.vout.flatMap CTxOut.serialize).length := by
    rw [length_flatMap]
    refine le_trans ?_ (le_sum_of_mem (mem_map_of_mem hmem))
    simp only [CTxOut.serialize, serializeBytes, length_append]
    omega
  unfold CMutableTransaction.getSerializeSize CMutableTransaction.serialize serializeVector
  simp only [length_append]
  omega

lemma checkOutputs_congr {vout vout' : List CTxOut} (h : vout.map (·.nValue) = vout'.map (·.nValue))
    (acc : CAmount) : checkOutputs acc vout = checkOutputs acc vout' := by
  induction vout generalizing vout' acc with
  | nil =>
    obtain rfl : vout' = [] := by simpa using h.symm
    rfl
  | cons o vout ih =>
    cases vout' with
    | nil => simp at h
    | cons o' vout' =>
      simp only [map_cons, List.cons.injEq] at h
      simp only [checkOutputs, h.1, ih h.2]

lemma RedactsTo.checkTransaction_iff (h : RedactsTo op oldTX newTX k txout)
    (hchk : checkTransaction oldTX.toCMutableTransaction false = .ok ()) :
    checkTransaction newTX.toCMutableTransaction false = .ok () ↔
      newTX.getSerializeSize strippedStream * WITNESS_SCALE_FACTOR ≤ MAX_BLOCK_WEIGHT := by
  have hprev : checkPrevouts newTX.toCMutableTransaction = checkPrevouts oldTX.toCMutableTransaction := by
    unfold checkPrevouts
    rw [h.isCoinBase_eq, h.vin_eq]
  have hempty : newTX.vout.isEmpty = oldTX.vout.isEmpty := by
    have := congrArg List.isEmpty h.values_eq
    simpa using this
  simp only [checkTransaction, unit_bind_eq_ok_iff, rejectIf_eq_ok_iff, decide_eq_false_iff_not,
    not_lt] at hchk ⊢
  rw [hprev, hempty, h.vin_eq, checkOutputs_congr h.values_eq]
  obtain ⟨h₁, h₂, -, h₃, h₄, h₅⟩ := hchk
  constructor
  · rintro ⟨-, -, hsize, -⟩
    exact hsize
  · intro hsize
    exact ⟨h₁, h₂, hsize, h₃, by simp, h₅⟩

lemma RedactsTo.getLegacySigOpCount_le (h : RedactsTo op oldTX newTX k txout)
    (hchk : checkTransaction oldTX.toCMutableTransaction false = .ok ()) :
    getLegacySigOpCount newTX.toCMutableTransaction ≤
      getLegacySigOpCount oldTX.toCMutableTransaction := by
  have hsize : txout.scriptPubKey.length < 2 ^ 32 := by
    have h₁ := h.length_script_le
    have h₂ := (checkTransaction_ok hchk).2.1
    unfold WITNESS_SCALE_FACTOR MAX_BLOCK_WEIGHT at h₂
    omega
  unfold getLegacySigOpCount
  rw [h.vin_eq]
  apply Nat.add_le_add_left
  rw [h.vout_eq]
  unfold setScriptPubKey
  apply List.Forall₂.sum_le_sum
  rw [forall₂_iff_get]
  refine ⟨by simp, ?_⟩
  intro j h₁ h₂
  simp only [get_eq_getElem, getElem_map, getElem_modify]
  split_ifs with hj
  · simp [getSigOpCount_redactedScript op hsize]
  · exact le_refl _

end Transaction

section Block

variable {sha256 : Bytes → Uint256} {op : RedactOp} {oldTX newTX : CTransaction sha256} {k i : ℕ}
  {txout : CTxOut} {block : CBlock sha256} {params : ConsensusParams} {ctx : BlockContext}

def CBlock.rewrite (block : CBlock sha256) (i : ℕ) (newTX : CTransaction sha256) : CBlock sha256 :=
  { block with vtx := block.vtx.set i newTX }

lemma RedactsTo.getSerializeSize_rewrite (h : RedactsTo op oldTX newTX k txout)
    (hold : block.vtx[i]? = some oldTX) (s : SerStream) :
    (block.rewrite i newTX).getSerializeSize s + (serializeBytes txout.scriptPubKey).length =
      block.getSerializeSize s +
        (serializeBytes (redactedScript op txout.scriptPubKey.length)).length := by
  have htx := length_serialize_redactTo sha256 h.output
    (idValue sha256 oldTX.toCMutableTransaction) (outputsValue sha256 oldTX.toCMutableTransaction) op s
  rw [← h.eq] at htx
  have hset : block.vtx.set i newTX = block.vtx.modify i (fun _ => newTX) := by
    rw [set_eq_modify]
  have hvtx := length_flatMap_modify (fun tx : CTransaction sha256 => tx.toCMutableTransaction.serialize s)
    (fun _ => newTX) hold
  rw [← hset] at hvtx
  simp only [CBlock.getSerializeSize, CBlock.serialize, CBlock.rewrite, serializeVector,
    length_append, length_set]
  omega

lemma RedactsTo.getBlockWeight_rewrite (h : RedactsTo op oldTX newTX k txout)
    (hold : block.vtx[i]? = some oldTX) :
    getBlockWeight (block.rewrite i newTX) + 4 * (serializeBytes txout.scriptPubKey).length =
      getBlockWeight block +
        4 * (serializeBytes (redactedScript op txout.scriptPubKey.length)).length := by
  have h₁ := h.getSerializeSize_rewrite hold strippedStream
  have h₂ := h.getSerializeSize_rewrite hold networkStream
  unfold getBlockWeight WITNESS_SCALE_FACTOR
  omega

lemma stripped_le_of_weight (h : getBlockWeight block ≤ MAX_BLOCK_WEIGHT) :
    block.getSerializeSize strippedStream * WITNESS_SCALE_FACTOR ≤ MAX_BLOCK_WEIGHT ∧
    ∀ tx ∈ block.vtx, tx.getSerializeSize strippedStream * WITNESS_SCALE_FACTOR ≤ MAX_BLOCK_WEIGHT := by
  have hs : strippedStream.forHash = networkStream.forHash ∧ strippedStream.fAllowWitness = false := by
    decide
  have htx : ∀ tx : CTransaction sha256, (tx.toCMutableTransaction.serialize strippedStream).length ≤
      (tx.toCMutableTransaction.serialize networkStream).length := by
    intro tx
    unfold CMutableTransaction.serialize
    simp only [hs.1, hs.2, Bool.false_and, Bool.false_eq_true, if_false, length_append,
      length_nil]
    omega
  have hvtx : (block.vtx.flatMap (fun tx => tx.toCMutableTransaction.serialize strippedStream)).length ≤
      (block.vtx.flatMap (fun tx => tx.toCMutableTransaction.serialize networkStream)).length := by
    rw [length_flatMap, length_flatMap]
    exact sum_le_sum (fun tx _ => htx tx)
  have hblock : block.getSerializeSize strippedStream * WITNESS_SCALE_FACTOR ≤ MAX_BLOCK_WEIGHT := by
    unfold getBlockWeight WITNESS_SCALE_FACTOR at h
    unfold WITNESS_SCALE_FACTOR
    simp only [CBlock.getSerializeSize, CBlock.serialize, serializeVector, length_append] at h ⊢
    omega
  refine ⟨hblock, fun tx hmem => le_trans (Nat.mul_le_mul_right _ ?_) hblock⟩
  have hin := le_sum_of_mem (mem_map_of_mem
    (f := fun tx : CTransaction sha256 => (tx.toCMutableTransaction.serialize strippedStream).length) hmem)
  simp only [CBlock.getSerializeSize, CBlock.serialize, serializeVector, length_append,
    length_flatMap, CMutableTransaction.getSerializeSize] at hin ⊢
  omega

lemma any_set_eq (p : CTransaction sha256 → Bool) {vtx : List (CTransaction sha256)}
    (hold : vtx[i]? = some oldTX) (hp : p newTX = p oldTX) :
    (vtx.set i newTX).any p = vtx.any p := by
  calc (vtx.set i newTX).any p = ((vtx.set i newTX).map p).any id := by rw [any_map]; rfl
    _ = (vtx.map p).any id := by rw [map_set_eq p hold hp]
    _ = vtx.any p := by rw [any_map]; rfl

lemma RedactsTo.transactionsOk (h : RedactsTo op oldTX newTX k txout)
    (hold : block.vtx[i]? = some oldTX) (hok : TransactionsOk block.vtx)
    (hsize : newTX.getSerializeSize strippedStream * WITNESS_SCALE_FACTOR ≤ MAX_BLOCK_WEIGHT) :
    TransactionsOk (block.vtx.set i newTX) := by
  have hchk := hok.checked oldTX (mem_of_getElem? hold)
  have hcb : (block.vtx.set i newTX).map (·.isCoinBase) = block.vtx.map (·.isCoinBase) :=
    map_set_eq _ hold h.isCoinBase_eq
  refine ⟨?_, ?_, ?_, ?_, ?_, ?_⟩
  · have := hok.nonempty
    simpa using this
  · rw [length_set]
    exact hok.length
  · have hhead := congrArg List.head? hcb
    rw [head?_map, head?_map] at hhead
    have hcoinbase := hok.coinbase
    rw [Option.any_eq_true] at hcoinbase ⊢
    obtain ⟨cb, hmem, hcb₀⟩ := hcoinbase
    rw [hmem, Option.map_some, Option.map_eq_some_iff] at hhead
    obtain ⟨cb', hmem', heq⟩ := hhead
    exact ⟨cb', hmem', heq.trans hcb₀⟩
  · have htail := congrArg List.tail hcb
    rw [← map_tail, ← map_tail] at htail
    have hothers := hok.others
    rw [any_eq_false] at hothers ⊢
    intro tx htx
    have hmem : tx.isCoinBase ∈ block.vtx.tail.map (·.isCoinBase) := by
      rw [← htail]
      exact mem_map_of_mem htx
    obtain ⟨tx', htx', heq⟩ := mem_map.mp hmem
    rw [← heq]
    exact hothers tx' htx'
  · intro tx htx
    rcases mem_or_eq_of_mem_set htx with htx | rfl
    · exact hok.checked tx htx
    · exact (h.checkTransaction_iff hchk).mpr hsize
  · refine le_trans (Nat.mul_le_mul_right _ ?_) hok.sigOps
    apply List.Forall₂.sum_le_sum
    rw [forall₂_iff_get]
    refine ⟨by simp, ?_⟩
    intro j h₁ h₂
    simp only [get_eq_getElem, getElem_map, getElem_set]
    split_ifs with hj
    · subst hj
      obtain ⟨hlt, hget⟩ := List.getElem?_eq_some_iff.mp hold
      rw [hget]
      exact h.getLegacySigOpCount_le hchk
    · exact le_refl _

/-- The commitment that a redaction destroys: that of a coinbase, in its first `OP_RETURN` output. -/
def CommitmentLost (block : CBlock sha256) (i k : ℕ) : Prop :=
  i = 0 ∧ getWitnessCommitmentIndex block = some k

lemma checkWitnessCommitment_congr {block' : CBlock sha256}
    (hindex : getWitnessCommitmentIndex block' = getWitnessCommitmentIndex block)
    (hinput : coinbaseInput block' = coinbaseInput block)
    (hroot : blockWitnessMerkleRoot block' = blockWitnessMerkleRoot block)
    (hscript : ∀ c, getWitnessCommitmentIndex block = some c →
      coinbaseScriptPubKey block' c = coinbaseScriptPubKey block c) :
    checkWitnessCommitment block' = checkWitnessCommitment block := by
  unfold checkWitnessCommitment
  rw [hindex, hinput, hroot]
  cases hc : getWitnessCommitmentIndex block with
  | none => rfl
  | some c => simp only [hscript c hc]

lemma RedactsTo.checkWitnessCommitment_of_kept (h : RedactsTo op oldTX newTX k txout)
    (hold : block.vtx[i]? = some oldTX) (hkept : ¬CommitmentLost block i k) :
    checkWitnessCommitment (block.rewrite i newTX) = checkWitnessCommitment block := by
  obtain ⟨hlt, -⟩ := List.getElem?_eq_some_iff.mp hold
  cases hvtx : block.vtx with
  | nil => simp [hvtx] at hlt
  | cons cb rest =>
    cases i with
    | zero =>
      obtain rfl : cb = oldTX := by simpa [hvtx] using hold
      have hne : lastCommitment cb.vout ≠ some k := by
        intro heq
        apply hkept
        refine ⟨rfl, ?_⟩
        unfold getWitnessCommitmentIndex
        rw [hvtx]
        exact heq
      apply checkWitnessCommitment_congr
      · have hlast := lastCommitment_setScriptPubKey_of_ne (firstOpReturn_lt h.index)
          (isWitnessCommitment_redactedScript op txout.scriptPubKey.length) hne
        rw [← h.vout_eq] at hlast
        unfold getWitnessCommitmentIndex CBlock.rewrite
        rw [hvtx, set_cons_zero]
        exact hlast
      · simp [coinbaseInput, CBlock.rewrite, hvtx, h.vin_eq]
      · simp [blockWitnessMerkleRoot, CBlock.rewrite, hvtx]
      · intro c hc
        have hck : k ≠ c := by
          rintro rfl
          exact hkept ⟨rfl, hc⟩
        simp [coinbaseScriptPubKey, CBlock.rewrite, hvtx, h.vout_eq, setScriptPubKey, hck]
    | succ n =>
      have hold' : rest[n]? = some oldTX := by simpa [hvtx] using hold
      have hw := map_set_eq (fun tx => tx.witnessHash) hold' h.witnessHash_eq
      apply checkWitnessCommitment_congr
      · simp [getWitnessCommitmentIndex, CBlock.rewrite, hvtx]
      · simp [coinbaseInput, CBlock.rewrite, hvtx]
      · simp only [blockWitnessMerkleRoot, CBlock.rewrite, hvtx, set_cons_succ, tail_cons, hw]
      · intro c _
        simp [coinbaseScriptPubKey, CBlock.rewrite, hvtx]

lemma RedactsTo.not_contextualCheckBlock_of_lost (h : RedactsTo op oldTX newTX k txout)
    (hold : block.vtx[i]? = some oldTX) (hsegwit : ctx.fSegwit = true)
    (hlost : CommitmentLost block i k) (hctx : contextualCheckBlock block params ctx = .ok ()) :
    contextualCheckBlock (block.rewrite i newTX) params ctx ≠ .ok () := by
  obtain ⟨rfl, hindex⟩ := hlost
  obtain ⟨hlt, -⟩ := List.getElem?_eq_some_iff.mp hold
  cases hvtx : block.vtx with
  | nil => simp [hvtx] at hlt
  | cons cb rest =>
    obtain rfl : cb = oldTX := by simpa [hvtx] using hold
    have hlast : lastCommitment cb.vout = some k := by
      unfold getWitnessCommitmentIndex at hindex
      rw [hvtx] at hindex
      exact hindex
    -- the nonce that the commitment was checked with is a witness
    have hwitness : cb.hasWitness = true := by
      obtain ⟨-, -, ⟨fHave, hans, -⟩, -⟩ := contextualCheckBlock_iff.mp hctx
      unfold witnessAnswer checkWitnessCommitment at hans
      rw [if_pos hsegwit, hindex] at hans
      unfold coinbaseInput at hans
      rw [hvtx] at hans
      unfold CMutableTransaction.hasWitness
      cases hvin : cb.vin with
      | nil => simp [hvin, reject] at hans
      | cons txin vin =>
        cases hstack : txin.scriptWitness with
        | nil => simp [hvin, hstack, reject] at hans
        | cons => simp [hstack]
    have hnone : getWitnessCommitmentIndex (block.rewrite 0 newTX) = none := by
      have := lastCommitment_setScriptPubKey_self h.index
        (isWitnessCommitment_redactedScript op txout.scriptPubKey.length) hlast
      rw [← h.vout_eq] at this
      unfold getWitnessCommitmentIndex CBlock.rewrite
      rw [hvtx, set_cons_zero]
      exact this
    intro hctx'
    obtain ⟨-, -, ⟨fHave, hans, hwit⟩, -⟩ := contextualCheckBlock_iff.mp hctx'
    unfold witnessAnswer checkWitnessCommitment at hans
    rw [if_pos hsegwit, hnone] at hans
    have hno := hwit (Except.ok.inj hans).symm
    unfold CBlock.rewrite at hno
    rw [hvtx, set_cons_zero, any_cons, h.hasWitness_eq, hwitness] at hno
    cases hno

/-- What the redaction has to leave alone in the block: the witness commitment must survive, and
the output must have room to grow. -/
structure RedactionKeepsBlock (op : RedactOp) (block : CBlock sha256) (ctx : BlockContext)
    (i k : ℕ) (txout : CTxOut) : Prop where
  commitment : ctx.fSegwit = true → ¬CommitmentLost block i k
  weight : getBlockWeight block +
      4 * (serializeBytes (redactedScript op txout.scriptPubKey.length)).length ≤
    MAX_BLOCK_WEIGHT + 4 * (serializeBytes txout.scriptPubKey).length

lemma blockMerkleRoot_rewrite (hold : block.vtx[i]? = some oldTX) (hid : newTX.hash = oldTX.hash) :
    blockMerkleRoot (block.rewrite i newTX) = blockMerkleRoot block := by
  have hids : (block.rewrite i newTX).vtx.map (·.hash) = (block.vtx.map (·.hash)).set i newTX.hash :=
    map_set
  unfold blockMerkleRoot
  rw [hids, ← map_set, map_set_eq _ hold hid]

/-- A rewritten block that is valid again has kept the commitment and had room for the output.
Under these two conditions it is valid if the redacted transaction kept its id. -/
theorem redact_keeps_valid (sha256 : Bytes → Uint256) (op : RedactOp)
    (oldTX newTX : CTransaction sha256) (block : CBlock sha256) (params : ConsensusParams)
    (ctx : BlockContext) (i k : ℕ) (txout : CTxOut) (hf : block.fChecked = false)
    (hvalid : block.Valid params ctx)
    (hi : block.vtx.findIdx? (fun tx => tx.hash = oldTX.hash) = some i)
    (hold : block.vtx[i]? = some oldTX) (h : RedactsTo op oldTX newTX k txout) :
    ∃ block', block.replaceTransaction oldTX.hash newTX = some block' ∧
      (block'.Valid params ctx → RedactionKeepsBlock op block ctx i k txout) ∧
      (RedactionKeepsId sha256 op oldTX.toCMutableTransaction →
        (block'.Valid params ctx ↔ RedactionKeepsBlock op block ctx i k txout)) := by
  obtain ⟨hcheck, hctx⟩ := hvalid
  obtain ⟨hpow, hroot, hsize, hok⟩ := (exists_checkBlock_iff hf).mp hcheck
  obtain ⟨hfinal, hheight, hwitness, hweight⟩ := contextualCheckBlock_iff.mp hctx
  have hgrow := h.getBlockWeight_rewrite hold
  have hf' : (block.rewrite i newTX).fChecked = false := hf
  have hmust : (block.rewrite i newTX).Valid params ctx →
      RedactionKeepsBlock op block ctx i k txout := by
    rintro ⟨-, hctx'⟩
    obtain ⟨-, -, -, hweight'⟩ := contextualCheckBlock_iff.mp hctx'
    refine ⟨?_, by omega⟩
    intro hsegwit hlost
    exact h.not_contextualCheckBlock_of_lost hold hsegwit hlost hctx hctx'
  refine ⟨block.rewrite i newTX, replaceTransaction_eq hi, hmust, fun hid => ⟨hmust, ?_⟩⟩
  · intro hkeeps
    have hweight' : getBlockWeight (block.rewrite i newTX) ≤ MAX_BLOCK_WEIGHT := by
      have := hkeeps.weight
      omega
    obtain ⟨hsize', htxsize⟩ := stripped_le_of_weight hweight'
    have hmem : newTX ∈ (block.rewrite i newTX).vtx :=
      List.mem_set (List.getElem?_eq_some_iff.mp hold).1 newTX
    constructor
    · exact (exists_checkBlock_iff hf').mpr ⟨hpow,
        (blockMerkleRoot_rewrite hold (h.hash_eq_of_keeps hid)).trans hroot, hsize', h.transactionsOk hold hok (htxsize newTX hmem)⟩
    · have hfinal' := any_set_eq (fun tx => !isFinalTx tx.toCMutableTransaction ctx.nHeight
        (lockTimeCutoff block.toCBlockHeader ctx)) hold (by rw [h.isFinalTx_eq])
      have hany := any_set_eq (fun tx => tx.hasWitness) hold h.hasWitness_eq
      have hanswer : witnessAnswer (block.rewrite i newTX) ctx = witnessAnswer block ctx := by
        unfold witnessAnswer
        split_ifs with hsegwit
        · exact h.checkWitnessCommitment_of_kept hold (hkeeps.commitment hsegwit)
        · rfl
      have hinput : coinbaseInput (block.rewrite i newTX) = coinbaseInput block := by
        have hvins := congrArg List.head? (map_set_eq (fun tx => tx.vin) hold h.vin_eq)
        rw [head?_map, head?_map] at hvins
        unfold coinbaseInput CBlock.rewrite
        rw [hvins]
      obtain ⟨fHave, hans, hno⟩ := hwitness
      refine contextualCheckBlock_iff.mpr ⟨hfinal'.trans hfinal, ?_, ⟨fHave, ?_, ?_⟩, hweight'⟩
      · rw [hinput]
        exact hheight
      · rw [hanswer]
        exact hans
      · intro hfalse
        exact hany.trans (hno hfalse)

end Block

section CommitmentBlock

/-- The witness commitment of a block with the Merkle root `root`, for a nonce of 32 zero bytes. -/
def commitmentScript (root : Uint256) : CScript :=
  [Opcode.OP_RETURN, 0x24, 0xaa, 0x21, 0xa9, 0xed] ++
    (hash256 cSHA256 (root.data ++ List.replicate 32 0)).data

def commitmentTx : CTransaction cSHA256 where
  toCMutableTransaction := plainTransaction
    [⟨COutPoint.null, [0x51, 0x51], SEQUENCE_FINAL, [List.replicate 32 0]⟩]
    [⟨5000000000, [0x51]⟩, ⟨0, commitmentScript (BaseBlob.null 32)⟩]
  hash := BaseBlob.ofNat 32 0x5d941256eec7624396393916ba9eabd4fcf91722ddc923e665344be80771f0f7
  computeHash_eq := by decide +kernel

def commitmentBlock : CBlock cSHA256 where
  nVersion := 4
  hashPrevBlock := BaseBlob.null 32
  hashMerkleRoot := commitmentTx.hash
  nTime := 1296688602
  nBits := 0x207fffff
  nNonce := 1
  hashUChainVersion := BaseBlob.null 32
  vtx := [commitmentTx]
  fChecked := false

def segwitContext : BlockContext := ⟨1, true, true, 0⟩

lemma commitmentTx_below : commitmentTx.RandomnessBelow := ⟨null_lt, null_lt, null_lt, null_lt⟩

def hiddenCommitmentTx : CTransaction cSHA256 :=
  makeTransaction cSHA256
    (redactTo cSHA256 (idValue cSHA256 commitmentTx.toCMutableTransaction)
      (outputsValue cSHA256 commitmentTx.toCMutableTransaction) .hide 1
      commitmentTx.toCMutableTransaction)
    (redactTo_randomnessBelow _ _ _ _ (idValue_bounds _ commitmentTx_below)
      (outputsValue_bounds _ commitmentTx_below))

lemma redactsTo_hiddenCommitmentTx :
    RedactsTo .hide commitmentTx hiddenCommitmentTx 1 ⟨0, commitmentScript (BaseBlob.null 32)⟩ :=
  ⟨rfl, rfl, redact_eq commitmentTx_below .hide rfl⟩

lemma commitmentBlock_valid : commitmentBlock.Valid regtest segwitContext :=
  valid_of_isOk (by decide +kernel) (by decide +kernel)

lemma findIdx_commitmentBlock :
    commitmentBlock.vtx.findIdx? (fun tx => tx.hash = commitmentTx.hash) = some 0 := by
  simp [commitmentBlock]

/-- A coinbase that commits to the data transaction behind it. -/
def mutableCoinbase : CTransaction cSHA256 :=
  makeTransaction cSHA256 (plainTransaction
    [⟨COutPoint.null, [0x51, 0x51], SEQUENCE_FINAL, [List.replicate 32 0]⟩]
    [⟨5000000000, [0x51]⟩, ⟨0, commitmentScript (hash256 cSHA256
      ((BaseBlob.null 32).data ++ (dataTransactionRef dataScript).hash.data))⟩])
    ⟨null_lt, null_lt, null_lt, null_lt⟩

def mutableBlock : CBlock cSHA256 where
  nVersion := 4
  hashPrevBlock := BaseBlob.null 32
  hashMerkleRoot :=
    hash256 cSHA256 (mutableCoinbase.hash.data ++ (dataTransactionRef dataScript).hash.data)
  nTime := 1296688602
  nBits := 0x207fffff
  nNonce := 0
  hashUChainVersion := BaseBlob.null 32
  vtx := [mutableCoinbase, dataTransactionRef dataScript]
  fChecked := false

lemma mutableBlock_valid : mutableBlock.Valid regtest segwitContext :=
  valid_of_isOk (by decide +kernel) (by decide +kernel)

theorem redact_keeps_valid_mutableBlock :
    ∃ block', mutableBlock.replaceTransaction (dataTransactionRef dataScript).hash
        (redactedData .hide dataScript) = some block' ∧ block'.Valid regtest segwitContext := by
  have hi : mutableBlock.vtx.findIdx? (fun tx => tx.hash = (dataTransactionRef dataScript).hash) = some 1 := by
    decide +kernel
  obtain ⟨block', hblock', -, hkept⟩ := redact_keeps_valid cSHA256 .hide (dataTransactionRef dataScript)
    (redactedData .hide dataScript) mutableBlock regtest segwitContext 1 0 ⟨0, dataScript⟩ rfl
    mutableBlock_valid hi rfl ⟨rfl, rfl, redact_dataTransactionRef .hide rfl⟩
  refine ⟨block', hblock', (hkept (.inl rfl)).mpr ⟨?_, by decide +kernel⟩⟩
  rintro - ⟨h, -⟩
  cases h

theorem redact_commitmentBlock_not_valid :
    commitmentBlock.Valid regtest segwitContext ∧
    redact cSHA256 .hide commitmentTx.toCMutableTransaction =
      some hiddenCommitmentTx.toCMutableTransaction ∧
    ∃ block', commitmentBlock.replaceTransaction commitmentTx.hash hiddenCommitmentTx = some block' ∧
      contextualCheckBlock block' regtest segwitContext ≠ .ok () := by
  refine ⟨commitmentBlock_valid, redactsTo_hiddenCommitmentTx.redact, commitmentBlock.rewrite 0 _,
    replaceTransaction_eq findIdx_commitmentBlock, ?_⟩
  exact redactsTo_hiddenCommitmentTx.not_contextualCheckBlock_of_lost rfl rfl ⟨rfl, rfl⟩
    commitmentBlock_valid.2

end CommitmentBlock

end MutableBitcoin
