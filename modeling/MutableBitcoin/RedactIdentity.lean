import MutableBitcoin.Collision

/-!
# What a redaction does to the ids and the signatures

A transaction without witness keeps its id and all its legacy signature hashes, and the witness
id of every transaction is a function of the value of its id message.
-/

namespace MutableBitcoin
open Lib CChamHash CTransactionSignatureSerializer

variable {sha256 : Bytes → Uint256}

section Identity

variable {tx tx' : CMutableTransaction}

/-- The same transaction up to the four chameleon fields and the contents of the outputs. -/
structure SameSkeleton (tx tx' : CMutableTransaction) : Prop where
  nVersion : tx.nVersion = tx'.nVersion
  vin : tx.vin = tx'.vin
  vout : tx.vout.length = tx'.vout.length
  nLockTime : tx.nLockTime = tx'.nLockTime

lemma SameSkeleton.symm (h : SameSkeleton tx tx') : SameSkeleton tx' tx :=
  ⟨h.nVersion.symm, h.vin.symm, h.vout.symm, h.nLockTime.symm⟩

lemma SameSkeleton.serialize (h : SameSkeleton tx tx') (scriptCode : CScript) (nIn : ℕ)
    (nHashType : Int32) :
    serialize ⟨tx, scriptCode, nIn, nHashType⟩ =
      serialize ⟨tx', scriptCode, nIn, nHashType⟩ := by
  have hin : serializeInput ⟨tx, scriptCode, nIn, nHashType⟩ =
      serializeInput ⟨tx', scriptCode, nIn, nHashType⟩ := by
    funext nInput
    simp only [serializeInput, h.vin]
    rfl
  simp only [CTransactionSignatureSerializer.serialize, hin, h.nVersion, h.vin, h.vout, h.nLockTime]
  rfl

lemma redactTo_sameSkeleton (sha256 : Bytes → Uint256) (h hs : ℤ) (op : RedactOp) (k : ℕ)
    (tx : CMutableTransaction) :
    SameSkeleton (redactTo sha256 h hs op k tx) tx where
  nVersion := rfl
  vin := rfl
  vout := by simp [redactTo, collideId, collideOutputs, redactOutput, setScriptPubKey]
  nLockTime := rfl

lemma signatureHash_base_congr (hsk : SameSkeleton tx tx') (hv : outputsValue sha256 tx = outputsValue sha256 tx')
    (h : tx.RandomnessBelow) (h' : tx'.RandomnessBelow) (scriptCode : CScript) (nIn : ℕ)
    (nHashType : Int32) (amount : CAmount) (cache : Option PrecomputedTransactionData) :
    ∃ digest,
      signatureHash sha256 scriptCode tx nIn nHashType amount .SIGVERSION_BASE cache 0 = some digest ∧
      signatureHash sha256 scriptCode tx' nIn nHashType amount .SIGVERSION_BASE cache 0 = some digest := by
  have hc := chamHash_eq sha256 (outputsHash sha256 tx) h.rscriptSig h.sscriptSig
  have hc' := chamHash_eq sha256 (outputsHash sha256 tx') h'.rscriptSig h'.sscriptSig
  simp only [outputsHash] at hc hc'
  simp only [outputsValue, outputsHash] at hv
  simp only [signatureHash, hc, hc', hv, hsk.vin, hsk.vout, hsk.serialize, reduceCtorEq,
    and_false, if_false, true_and, OfNat.zero_ne_ofNat, zero_ne_one, Option.bind_eq_bind, Option.bind_some]
  split_ifs
  · exact ⟨_, rfl, rfl⟩
  · exact ⟨_, rfl, rfl⟩
  · exact ⟨_, rfl, rfl⟩

/-- Redaction keeps the id and every legacy signature hash of a transaction without witness. -/
theorem redact_keeps_id_and_signatureHash (sha256 : Bytes → Uint256) (op : RedactOp)
    (oldTX : CMutableTransaction) (hw : oldTX.hasWitness = false)
    (hop : (firstOpReturn oldTX.vout).isSome) (h : oldTX.RandomnessBelow) :
    ∃ newTX txid, redact sha256 op oldTX = some newTX ∧
      computeHash sha256 oldTX = some txid ∧ computeHash sha256 newTX = some txid ∧
      ∀ scriptCode nIn nHashType amount cache, ∃ digest,
        signatureHash sha256 scriptCode oldTX nIn nHashType amount .SIGVERSION_BASE cache 0 =
          some digest ∧
        signatureHash sha256 scriptCode newTX nIn nHashType amount .SIGVERSION_BASE cache 0 =
          some digest := by
  obtain ⟨k, hk⟩ := Option.isSome_iff_exists.mp hop
  have hid := idValue_bounds sha256 h
  have hout := outputsValue_bounds sha256 h
  have h' := redactTo_randomnessBelow sha256 op k oldTX hid hout
  refine ⟨_, valueHash sha256 (idValue sha256 oldTX), redact_eq h op hk, ?_, ?_, ?_⟩
  · rw [computeHash_eq h.rValue h.sValue, strippedValue_of_not_hasWitness hw]
  · rw [computeHash_eq h'.rValue h'.sValue,
      strippedValue_of_not_hasWitness (hasWitness_redactTo.trans hw), idValue_redactTo hid]
  · intro scriptCode nIn nHashType amount cache
    exact signatureHash_base_congr (redactTo_sameSkeleton _ _ _ _ _ _).symm (outputsValue_redactTo hout).symm
      h h' _ _ _ _ _

/-- One input with the given witness and one output with the given script. -/
def dataTransaction (scriptPubKey : CScript) (scriptWitness : List Bytes) : CMutableTransaction where
  rValue := BaseBlob.null 128
  sValue := BaseBlob.null 128
  rscriptSig := BaseBlob.null 128
  sscriptSig := BaseBlob.null 128
  nVersion := 2
  vin := [⟨⟨⟨List.replicate 32 7, rfl⟩, 0⟩, [], SEQUENCE_FINAL, scriptWitness⟩]
  vout := [⟨0, scriptPubKey⟩]
  nLockTime := 0

/-- `OP_RETURN` and one byte of data. -/
def dataScript : CScript := [Opcode.OP_RETURN, 1, 0x58]

lemma dataTransaction_randomnessBelow (scriptPubKey : CScript) (scriptWitness : List Bytes) :
    (dataTransaction scriptPubKey scriptWitness).RandomnessBelow := ⟨null_lt, null_lt, null_lt, null_lt⟩

theorem redact_keeps_dataTransaction :
    (dataTransaction dataScript []).hasWitness = false ∧
    (firstOpReturn (dataTransaction dataScript []).vout).isSome ∧
    ∃ newTX txid, redact cSHA256 .hide (dataTransaction dataScript []) = some newTX ∧
      computeHash cSHA256 (dataTransaction dataScript []) = some txid ∧ computeHash cSHA256 newTX = some txid ∧
      ∀ scriptCode nIn nHashType amount cache, ∃ digest,
        signatureHash cSHA256 scriptCode (dataTransaction dataScript []) nIn nHashType amount .SIGVERSION_BASE
          cache 0 = some digest ∧
        signatureHash cSHA256 scriptCode newTX nIn nHashType amount .SIGVERSION_BASE cache 0 =
          some digest :=
  ⟨rfl, rfl, redact_keeps_id_and_signatureHash cSHA256 .hide (dataTransaction dataScript []) rfl rfl
    (dataTransaction_randomnessBelow dataScript [])⟩

end Identity

section Witness

variable {tx : CMutableTransaction}

lemma serializeHash_version_zero (tx : CMutableTransaction) :
    serializeHash sha256 tx SER_GETHASH 0 = serializeHash sha256 tx SER_GETHASH PROTOCOL_VERSION := by
  have h : (SerStream.mk SER_GETHASH 0).fAllowWitness =
      (SerStream.mk SER_GETHASH PROTOCOL_VERSION).fAllowWitness := by decide
  simp only [serializeHash, CMutableTransaction.serialize, h]
  rfl

lemma getWitnessHash_eq (hr : (tx.rValue.value : ℤ) < cChamHash.q)
    (hs : (tx.sValue.value : ℤ) < cChamHash.q) :
    getWitnessHash sha256 tx = some (valueHash sha256 (idValue sha256 tx)) := by
  by_cases hw : tx.hasWitness
  · rw [getWitnessHash, if_neg (by simp [hw]), serializeHashCham, serializeHash_clearValue,
      serializeHash_version_zero, chamHash_eq _ _ hr hs]
    rfl
  · rw [Bool.not_eq_true] at hw
    rw [getWitnessHash, if_pos (by simp [hw]), computeHash_eq hr hs,
      strippedValue_of_not_hasWitness hw]

end Witness

end MutableBitcoin
