import MutableBitcoin.Block

/-!
# Repeated redaction

Nodes redact original, already redacted or differently redacted copies. On scripts of 2 to 77 bytes
they all obtain the same transaction.
-/

namespace MutableBitcoin
open Lib CChamHash Option List

variable {sha256 : Bytes → Uint256}

lemma parseHex_fillerText (op : RedactOp) (n : ℕ) :
    parseHex (List.replicate n op.fillerText).flatten = List.replicate n op.fillerByte := by
  induction n with
  | zero => rfl
  | succ n ih =>
    rw [replicate_succ, flatten_cons, replicate_succ, ← ih]
    cases op <;> rfl

lemma redactedScript_eq (op : RedactOp) (szO : ℕ) :
    redactedScript op szO =
      CScript.pushData [Opcode.OP_RETURN] (List.replicate (szO - 2) op.fillerByte) := by
  simp only [redactedScript, parseHex_fillerText, CScript.pushOpcode, nil_append]

lemma isOpReturn_redactedScript (op : RedactOp) (szO : ℕ) : isOpReturn (redactedScript op szO) = true := by
  rw [redactedScript_eq]
  simp [isOpReturn, CScript.pushData]

lemma length_redactedScript (op : RedactOp) {szO : ℕ} (h : 2 ≤ szO ∧ szO ≤ 77) :
    (redactedScript op szO).length = szO := by
  have hlt : szO - 2 < 76 := by omega
  rw [redactedScript_eq]
  simp [CScript.pushData, Opcode.OP_PUSHDATA1, hlt]
  omega

variable {vout : List CTxOut} {k : ℕ}

lemma firstOpReturn_lt (hk : firstOpReturn vout = some k) : k < vout.length := by
  rw [firstOpReturn, findIdx?_eq_some_iff_getElem] at hk
  exact hk.1

lemma firstOpReturn_setScriptPubKey (hk : firstOpReturn vout = some k) {script : CScript}
    (hs : isOpReturn script = true) : firstOpReturn (setScriptPubKey vout k script) = some k := by
  rw [firstOpReturn, findIdx?_eq_some_iff_getElem] at hk ⊢
  obtain ⟨hlt, -, hbefore⟩ := hk
  refine ⟨by simpa [setScriptPubKey] using hlt, ?_, ?_⟩
  · simpa [setScriptPubKey, getElem_modify] using hs
  · intro j hj
    have hjk : k ≠ j := by omega
    simpa [setScriptPubKey, getElem_modify, hjk] using hbefore j hj

lemma setScriptPubKey_setScriptPubKey (vout : List CTxOut) (k : ℕ) (s s' : CScript) :
    setScriptPubKey (setScriptPubKey vout k s) k s' = setScriptPubKey vout k s' := by
  simp only [setScriptPubKey, modify_modify_eq]
  rfl

lemma scriptSizeAt_setScriptPubKey (hk : k < vout.length) (s : CScript) :
    scriptSizeAt (setScriptPubKey vout k s) k = s.length := by
  simp [scriptSizeAt, setScriptPubKey, getElem?_eq_getElem hk]

lemma redactTo_congr {tx tx' : CMutableTransaction} {h hs : ℤ} {op : RedactOp}
    (hsk : SameSkeleton tx tx') (hv : (redactOutput op k tx).vout = (redactOutput op k tx').vout) :
    redactTo sha256 h hs op k tx = redactTo sha256 h hs op k tx' := by
  have hout : outputsHash sha256 (redactOutput op k tx) = outputsHash sha256 (redactOutput op k tx') := by
    rw [outputsHash, outputsHash, hv]
  have hclear : (collideOutputs sha256 hs (redactOutput op k tx)).clearValue =
      (collideOutputs sha256 hs (redactOutput op k tx')).clearValue := by
    simp only [collideOutputs, hout, CMutableTransaction.clearValue, hv]
    simp only [redactOutput, hsk.nVersion, hsk.vin, hsk.nLockTime]
  have hmsg : serializeHash sha256 (collideOutputs sha256 hs (redactOutput op k tx)) SER_GETHASH
      PROTOCOL_VERSION = serializeHash sha256 (collideOutputs sha256 hs (redactOutput op k tx'))
      SER_GETHASH PROTOCOL_VERSION :=
    congrArg (hash256 sha256) (serialize_forHash_congr hclear _)
  rw [redactTo, redactTo, collideId, collideId, hmsg]
  simp only [CMutableTransaction.clearValue, CMutableTransaction.mk.injEq, true_and] at hclear ⊢
  exact hclear

lemma redactTo_redactTo {tx : CMutableTransaction} {h hs h' hs' : ℤ} {op op' : RedactOp}
    (hk : k < tx.vout.length) (hsz : 2 ≤ scriptSizeAt tx.vout k ∧ scriptSizeAt tx.vout k ≤ 77) :
    redactTo sha256 h hs op k (redactTo sha256 h' hs' op' k tx) = redactTo sha256 h hs op k tx := by
  refine redactTo_congr (redactTo_sameSkeleton _ _ _ _ _ _) ?_
  have hv : (redactTo sha256 h' hs' op' k tx).vout =
      setScriptPubKey tx.vout k (redactedScript op' (scriptSizeAt tx.vout k)) := rfl
  simp only [redactOutput, hv]
  rw [scriptSizeAt_setScriptPubKey hk, length_redactedScript op' hsz, setScriptPubKey_setScriptPubKey]

/-- What every redaction of `tx` keeps: the values it was given, the index of the output, the
size of its script, and the result of any further redaction. -/
structure RedactionOf (sha256 : Bytes → Uint256) (tx : CMutableTransaction) (k : ℕ)
    (cur : CMutableTransaction) : Prop where
  randomnessBelow : cur.RandomnessBelow
  firstOpReturn : firstOpReturn cur.vout = some k
  size : scriptSizeAt cur.vout k = scriptSizeAt tx.vout k
  redact : ∀ op, redact sha256 op cur = redact sha256 op tx

lemma RedactionOf.step {tx cur : CMutableTransaction}
    (hsz : 2 ≤ scriptSizeAt tx.vout k ∧ scriptSizeAt tx.vout k ≤ 77)
    (h : RedactionOf sha256 tx k cur) (op : RedactOp) :
    ∃ next, MutableBitcoin.redact sha256 op cur = some next ∧ RedactionOf sha256 tx k next := by
  have hid := idValue_bounds sha256 h.randomnessBelow
  have hout := outputsValue_bounds sha256 h.randomnessBelow
  have hlt := firstOpReturn_lt h.firstOpReturn
  refine ⟨_, redact_eq h.randomnessBelow op h.firstOpReturn, redactTo_randomnessBelow _ _ _ _ hid hout,
    firstOpReturn_setScriptPubKey h.firstOpReturn (isOpReturn_redactedScript _ _), ?_, ?_⟩
  · refine (scriptSizeAt_setScriptPubKey hlt _).trans ?_
    rw [h.size, length_redactedScript op hsz]
  · intro op'
    rw [← h.redact op', redact_eq (redactTo_randomnessBelow _ _ _ _ hid hout) op'
      (firstOpReturn_setScriptPubKey h.firstOpReturn (isOpReturn_redactedScript _ _)),
      idValue_redactTo hid, outputsValue_redactTo hout, redact_eq h.randomnessBelow op' h.firstOpReturn,
      redactTo_redactTo hlt (by rw [h.size]; exact hsz)]

lemma RedactionOf.run {tx : CMutableTransaction}
    (hsz : 2 ≤ scriptSizeAt tx.vout k ∧ scriptSizeAt tx.vout k ≤ 77) (ops : List RedactOp) :
    ∀ cur, RedactionOf sha256 tx k cur →
      ∃ last, ops.foldlM (fun t op => MutableBitcoin.redact sha256 op t) cur = some last ∧
        RedactionOf sha256 tx k last := by
  induction ops with
  | nil => exact fun cur h => ⟨cur, rfl, h⟩
  | cons op ops ih =>
    intro cur h
    obtain ⟨next, hnext, h'⟩ := h.step hsz op
    obtain ⟨last, hlast, h''⟩ := ih next h'
    exact ⟨last, by rw [foldlM_cons, hnext]; exact hlast, h''⟩

/-- Redaction is independent of the history: the last instruction decides every field, and with
them the value in the trie. -/
theorem redact_history_independent (sha256 : Bytes → Uint256) (tx : CMutableTransaction) (k : ℕ)
    (h : tx.RandomnessBelow) (hk : firstOpReturn tx.vout = some k)
    (hsz : 2 ≤ scriptSizeAt tx.vout k ∧ scriptSizeAt tx.vout k ≤ 77)
    (ops : List RedactOp) (op : RedactOp) :
    ∃ cur newTX, ops.foldlM (fun t o => redact sha256 o t) tx = some cur ∧
      (ops ++ [op]).foldlM (fun t o => redact sha256 o t) tx = some newTX ∧
      redact sha256 op tx = some newTX ∧
      (redact sha256 op cur).map (valueMPT sha256) = (redact sha256 op tx).map (valueMPT sha256) := by
  have hid : RedactionOf sha256 tx k tx := ⟨h, hk, rfl, fun _ => rfl⟩
  obtain ⟨cur, hcur, hred⟩ := RedactionOf.run hsz ops tx hid
  obtain ⟨newTX, hnew, -⟩ := hid.step hsz op
  refine ⟨cur, newTX, hcur, ?_, hnew, by rw [hred.redact op]⟩
  rw [foldlM_append, hcur]
  simp [hred.redact op, hnew]

theorem redact_history_independent_dataTransaction :
    (firstOpReturn (dataTransaction dataScript []).vout = some 0) ∧
    ∃ cur newTX,
      [RedactOp.hide].foldlM (fun t o => redact cSHA256 o t) (dataTransaction dataScript []) = some cur ∧
      ([RedactOp.hide] ++ [RedactOp.replace]).foldlM (fun t o => redact cSHA256 o t) (dataTransaction dataScript []) =
        some newTX ∧
      redact cSHA256 .replace (dataTransaction dataScript []) = some newTX ∧
      (redact cSHA256 .replace cur).map (valueMPT cSHA256) =
        (redact cSHA256 .replace (dataTransaction dataScript [])).map (valueMPT cSHA256) :=
  ⟨rfl, redact_history_independent cSHA256 (dataTransaction dataScript []) 0
    (dataTransaction_randomnessBelow dataScript []) rfl (by decide) [.hide] .replace⟩

/-!
## The ids of a redacted transaction

Step 6 takes the collision for the serialization with the witness, and the id is computed from the
one without.
-/

section Ids

/-- The result of an earlier redaction with the same instruction, on a script of 2 to 77 bytes. -/
def AlreadyRedacted (sha256 : Bytes → Uint256) (op : RedactOp) (tx : CMutableTransaction) : Prop :=
  ∃ earlier k, earlier.RandomnessBelow ∧ firstOpReturn earlier.vout = some k ∧
    2 ≤ scriptSizeAt earlier.vout k ∧ scriptSizeAt earlier.vout k ≤ 77 ∧
    redact sha256 op earlier = some tx

/-- The transactions whose id survives a redaction. -/
def RedactionKeepsId (sha256 : Bytes → Uint256) (op : RedactOp) (tx : CMutableTransaction) : Prop :=
  tx.hasWitness = false ∨ AlreadyRedacted sha256 op tx

lemma AlreadyRedacted.redact_self {op : RedactOp} {tx : CMutableTransaction}
    (h : AlreadyRedacted sha256 op tx) : redact sha256 op tx = some tx := by
  obtain ⟨earlier, k, hbelow, hk, hlo, hhi, htx⟩ := h
  have hid : RedactionOf sha256 earlier k earlier := ⟨hbelow, hk, rfl, fun _ => rfl⟩
  obtain ⟨next, hnext, hred⟩ := hid.step ⟨hlo, hhi⟩ op
  obtain rfl : next = tx := some_inj.mp (hnext.symm.trans htx)
  rw [hred.redact op, htx]

lemma RedactionKeepsId.computeHash_eq {op : RedactOp} {oldTX newTX : CMutableTransaction}
    (hkeeps : RedactionKeepsId sha256 op oldTX) (h : oldTX.RandomnessBelow)
    (hnew : redact sha256 op oldTX = some newTX) :
    computeHash sha256 newTX = computeHash sha256 oldTX := by
  cases hkeeps with
  | inl hw =>
    have hop : (firstOpReturn oldTX.vout).isSome := by
      cases hk : firstOpReturn oldTX.vout with
      | none => simp [redact, hk] at hnew
      | some k => rfl
    obtain ⟨newTX', txid, hnew', hold, hid, -⟩ := redact_keeps_id_and_signatureHash sha256 op oldTX hw hop h
    obtain rfl : newTX' = newTX := some_inj.mp (hnew'.symm.trans hnew)
    rw [hid, hold]
  | inr hred =>
    obtain rfl : oldTX = newTX := some_inj.mp (hred.redact_self.symm.trans hnew)
    rfl

/-- The redaction of a transaction always keeps the witness id; it keeps the id if there is no
witness or the transaction already is the result of the same redaction. -/
theorem redact_keeps_ids (sha256 : Bytes → Uint256) (op : RedactOp) (oldTX : CMutableTransaction)
    (hop : (firstOpReturn oldTX.vout).isSome) (h : oldTX.RandomnessBelow) :
    ∃ newTX, redact sha256 op oldTX = some newTX ∧
      getWitnessHash sha256 newTX = getWitnessHash sha256 oldTX ∧
      (RedactionKeepsId sha256 op oldTX → computeHash sha256 newTX = computeHash sha256 oldTX) := by
  obtain ⟨k, hk⟩ := isSome_iff_exists.mp hop
  have hid := idValue_bounds sha256 h
  have hout := outputsValue_bounds sha256 h
  have h' := redactTo_randomnessBelow sha256 op k oldTX hid hout
  have hnew : redact sha256 op oldTX = some _ := redact_eq h op hk
  refine ⟨_, hnew, ?_, fun hkeeps => hkeeps.computeHash_eq h hnew⟩
  rw [getWitnessHash_eq h'.rValue h'.sValue, getWitnessHash_eq h.rValue h.sValue, idValue_redactTo hid]

theorem redact_keeps_ids_dataTransaction :
    ∃ oldTX, redact cSHA256 .hide (dataTransaction dataScript [[1]]) = some oldTX ∧
      oldTX.hasWitness = true ∧
      ∃ newTX, redact cSHA256 .hide oldTX = some newTX ∧
        getWitnessHash cSHA256 newTX = getWitnessHash cSHA256 oldTX ∧
        computeHash cSHA256 newTX = computeHash cSHA256 oldTX := by
  have hbelow := dataTransaction_randomnessBelow dataScript [[1]]
  have hold : redact cSHA256 .hide (dataTransaction dataScript [[1]]) = some _ :=
    redact_eq hbelow .hide (k := 0) rfl
  obtain ⟨newTX, hnew, hwit, hid⟩ := redact_keeps_ids cSHA256 .hide
    (redactTo cSHA256 (idValue cSHA256 (dataTransaction dataScript [[1]]))
      (outputsValue cSHA256 (dataTransaction dataScript [[1]])) .hide 0 (dataTransaction dataScript [[1]]))
    rfl (redactTo_randomnessBelow _ _ _ _ (idValue_bounds _ hbelow) (outputsValue_bounds _ hbelow))
  exact ⟨_, hold, rfl, newTX, hnew, hwit, hid (.inr ⟨_, 0, hbelow, rfl, by decide, by decide, hold⟩)⟩

set_option maxRecDepth 100000 in
theorem redact_segwit_changes_id :
    (dataTransaction dataScript [[1]]).hasWitness = true ∧
    (firstOpReturn (dataTransaction dataScript [[1]]).vout).isSome ∧
    (dataTransaction dataScript [[1]]).RandomnessBelow ∧
    ∃ newTX, redact cSHA256 .hide (dataTransaction dataScript [[1]]) = some newTX ∧
      computeHash cSHA256 newTX ≠ computeHash cSHA256 (dataTransaction dataScript [[1]]) := by
  have h := dataTransaction_randomnessBelow dataScript [[1]]
  refine ⟨rfl, rfl, h, _, redact_eq h .hide rfl, ?_⟩
  decide +kernel

end Ids

variable {op : RedactOp} {oldTX newTX : CTransaction sha256} {k : ℕ}
  {txout : CTxOut}

/-- The new transaction is the redaction of the old one, whose first `OP_RETURN` output is `txout`
with index `k`. -/
structure RedactsTo (op : RedactOp) (oldTX newTX : CTransaction sha256) (k : ℕ) (txout : CTxOut) :
    Prop where
  index : firstOpReturn oldTX.vout = some k
  output : oldTX.vout[k]? = some txout
  redact : redact sha256 op oldTX.toCMutableTransaction = some newTX.toCMutableTransaction

namespace RedactsTo

variable (h : RedactsTo op oldTX newTX k txout)

include h

lemma below : oldTX.RandomnessBelow :=
  randomnessBelow_of_redactAt ((redact_eq_redactAt op h.index).symm.trans h.redact)

lemma eq : newTX.toCMutableTransaction = redactTo sha256
    (idValue sha256 oldTX.toCMutableTransaction) (outputsValue sha256 oldTX.toCMutableTransaction)
    op k oldTX.toCMutableTransaction :=
  some_inj.mp (h.redact.symm.trans (redact_eq h.below op h.index))

lemma sameSkeleton : SameSkeleton newTX.toCMutableTransaction oldTX.toCMutableTransaction := by
  rw [h.eq]
  exact redactTo_sameSkeleton _ _ _ _ _ _

lemma isOpReturn : isOpReturn txout.scriptPubKey = true := by
  have hindex := h.index
  rw [firstOpReturn, findIdx?_eq_some_iff_getElem] at hindex
  obtain ⟨hlt, hop, -⟩ := hindex
  rwa [getElem_eq_iff hlt |>.mpr h.output] at hop

lemma vin_eq : newTX.vin = oldTX.vin := h.sameSkeleton.vin

lemma vout_eq : newTX.vout =
    setScriptPubKey oldTX.vout k (redactedScript op txout.scriptPubKey.length) := by
  have hsize : scriptSizeAt oldTX.vout k = txout.scriptPubKey.length := by
    simp [scriptSizeAt, h.output]
  rw [h.eq, ← hsize]
  rfl

lemma nLockTime_eq : newTX.nLockTime = oldTX.nLockTime := h.sameSkeleton.nLockTime

lemma isCoinBase_eq : newTX.isCoinBase = oldTX.isCoinBase := by
  unfold CMutableTransaction.isCoinBase
  rw [h.vin_eq]

lemma hasWitness_eq : newTX.hasWitness = oldTX.hasWitness := by
  unfold CMutableTransaction.hasWitness
  rw [h.vin_eq]

lemma values_eq : newTX.vout.map (·.nValue) = oldTX.vout.map (·.nValue) := by
  rw [h.vout_eq]
  unfold setScriptPubKey
  apply ext_getElem (by simp)
  intro j h₁ h₂
  simp only [getElem_map, getElem_modify]
  split_ifs <;> rfl

lemma witnessHash_eq : newTX.witnessHash = oldTX.witnessHash := by
  apply some_inj.mp
  unfold CTransaction.witnessHash
  rw [some_get, some_get, getWitnessHash_eq newTX.lt_q.1 newTX.lt_q.2,
    getWitnessHash_eq oldTX.lt_q.1 oldTX.lt_q.2, h.eq, idValue_redactTo (idValue_bounds sha256 h.below)]

lemma hash_eq_of_keeps (hkeeps : RedactionKeepsId sha256 op oldTX.toCMutableTransaction) :
    newTX.hash = oldTX.hash := by
  apply some_inj.mp
  rw [← newTX.computeHash_eq, ← oldTX.computeHash_eq, hkeeps.computeHash_eq h.below h.redact]

lemma hash_eq_of_not_hasWitness (hw : oldTX.hasWitness = false) : newTX.hash = oldTX.hash :=
  h.hash_eq_of_keeps (.inl hw)

end RedactsTo

end MutableBitcoin
