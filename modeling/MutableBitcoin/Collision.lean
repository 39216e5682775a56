import MutableBitcoin.Redact

/-!
# Redaction preserves the hashes

The redaction of a transaction in closed form: it depends on the redacted outputs, the other fields
and two chameleon values, and keeps both values.
-/

namespace MutableBitcoin
open Lib CChamHash Option

/-- The four fields of chameleon randomness are residues modulo `q`. -/
structure CMutableTransaction.RandomnessBelow (tx : CMutableTransaction) : Prop where
  rValue : (tx.rValue.value : ℤ) < cChamHash.q
  sValue : (tx.sValue.value : ℤ) < cChamHash.q
  rscriptSig : (tx.rscriptSig.value : ℤ) < cChamHash.q
  sscriptSig : (tx.sscriptSig.value : ℤ) < cChamHash.q

section Values

variable (sha256 : Bytes → Uint256)

/-- The chameleon value `h` of a message under the randomness of two blobs. -/
def chamValue (bitHash : Uint256) (r s : Uint1024) : ℤ :=
  foldResidue cChamHash r.value (ModularArithmetic.multiply ⟨cChamHash.p⟩
    (ModularArithmetic.exponentiate ⟨cChamHash.p⟩ cChamHash.hk (hashInput sha256 bitHash.value r.value))
    (ModularArithmetic.exponentiate ⟨cChamHash.p⟩ cChamHash.g s.value))

def idValue (tx : CMutableTransaction) : ℤ :=
  chamValue sha256 (serializeHash sha256 tx SER_GETHASH PROTOCOL_VERSION) tx.rValue tx.sValue

def strippedValue (tx : CMutableTransaction) : ℤ :=
  chamValue sha256 (serializeHash sha256 tx SER_GETHASH SERIALIZE_TRANSACTION_NO_WITNESS)
    tx.rValue tx.sValue

def outputsHash (tx : CMutableTransaction) : Uint256 :=
  hash256 sha256 (tx.vout.flatMap CTxOut.serialize)

def outputsValue (tx : CMutableTransaction) : ℤ :=
  chamValue sha256 (outputsHash sha256 tx) tx.rscriptSig tx.sscriptSig

/-- The blob that `GetHash` makes of a chameleon value. -/
def valueHash (h : ℤ) : Uint256 := uint256S (integerToSHA256 sha256 h)

end Values

variable {sha256 : Bytes → Uint256}

lemma blob_bounds {r : Uint1024} (h : (r.value : ℤ) < cChamHash.q) :
    0 ≤ (r.value : ℤ) ∧ (r.value : ℤ) < cChamHash.q := ⟨by positivity, h⟩

lemma chamValue_eq (b : Uint256) (r s : Uint1024) :
    chamValue sha256 b r s = foldResidue cChamHash r.value
      (residue cChamHash (hashInput sha256 b.value r.value) s.value) := by
  rw [chamValue, multiply_exponentiate cChamHash_valid]

lemma chamValue_bounds (b : Uint256) {r : Uint1024} (hr : (r.value : ℤ) < cChamHash.q)
    (s : Uint1024) : 0 ≤ chamValue sha256 b r s ∧ chamValue sha256 b r s < cChamHash.q := by
  rw [chamValue_eq]
  exact foldResidue_bounds cChamHash_valid (blob_bounds hr) _ _

lemma cHash_blob (b : Uint256) {r s : Uint1024} (hr : (r.value : ℤ) < cChamHash.q)
    (hs : (s.value : ℤ) < cChamHash.q) :
    cHash sha256 cChamHash (integerOfBlob b) (integerOfBlob r) (integerOfBlob s) =
      some (integerToSHA256 sha256 (chamValue sha256 b r s), chamValue sha256 b r s) := by
  rw [integerOfBlob_eq, integerOfBlob_eq, integerOfBlob_eq, chamValue_eq]
  exact cHash_eq cChamHash_valid (blob_bounds hr) (blob_bounds hs) _

lemma chamHash_eq (sha256 : Bytes → Uint256) (b : Uint256) {r s : Uint1024} (hr : (r.value : ℤ) < cChamHash.q)
    (hs : (s.value : ℤ) < cChamHash.q) :
    chamHash sha256 b r s = some (valueHash sha256 (chamValue sha256 b r s)) := by
  simp [chamHash, cHash_blob b hr hs, valueHash]

lemma lt_q_of_chamHash {b hash : Uint256} {r s : Uint1024} (h : chamHash sha256 b r s = some hash) :
    (r.value : ℤ) < cChamHash.q ∧ (s.value : ℤ) < cChamHash.q := by
  simp -implicitDefEqProofs only [chamHash, integerOfBlob_eq, bind_eq_bind,
    bind_eq_some_iff] at h
  obtain ⟨_, h, -⟩ := h
  exact lt_of_cHash_eq_some h

lemma serialize_forHash_congr {tx tx' : CMutableTransaction}
    (h : tx.clearValue = tx'.clearValue) (nVersion : ℕ) :
    tx.serialize ⟨SER_GETHASH, nVersion⟩ = tx'.serialize ⟨SER_GETHASH, nVersion⟩ := by
  have hf : (SerStream.mk SER_GETHASH nVersion).forHash = true := by
    simp [SerStream.forHash, SER_GETHASH]
  cases tx
  cases tx'
  simp only [CMutableTransaction.clearValue, CMutableTransaction.mk.injEq, true_and] at h
  obtain ⟨rfl, rfl, rfl, rfl, rfl, rfl⟩ := h
  simp only [CMutableTransaction.serialize, hf, if_true, CMutableTransaction.hasWitness]
  rfl

lemma serializeHash_clearValue (tx : CMutableTransaction) (nVersion : ℕ) :
    serializeHash sha256 tx.clearValue SER_GETHASH nVersion =
      serializeHash sha256 tx SER_GETHASH nVersion := by
  have h : tx.clearValue.clearValue = tx.clearValue := rfl
  exact congrArg (hash256 sha256) (serialize_forHash_congr h nVersion)

lemma computeHash_eq {tx : CMutableTransaction} (hr : (tx.rValue.value : ℤ) < cChamHash.q)
    (hs : (tx.sValue.value : ℤ) < cChamHash.q) :
    computeHash sha256 tx = some (valueHash sha256 (strippedValue sha256 tx)) := by
  rw [computeHash, serializeHashCham, serializeHash_clearValue, chamHash_eq _ _ hr hs]
  rfl

section Collide

/-- The blobs that a collision for the value `h` stores next to the message `b`. -/
def collisionBlobs (sha256 : Bytes → Uint256) (h : ℤ) (b : Uint256) : Uint1024 × Uint1024 :=
  let rs := collision sha256 cChamHash h b.value
  (uint1024S (integertoHexString rs.1), uint1024S (integertoHexString rs.2))

lemma collisionBlobs_value (sha256 : Bytes → Uint256) {h : ℤ} (hh : 0 ≤ h ∧ h < cChamHash.q) (b : Uint256) :
    ((collisionBlobs sha256 h b).1.value : ℤ) = (collision sha256 cChamHash h b.value).1 ∧
    ((collisionBlobs sha256 h b).2.value : ℤ) = (collision sha256 cChamHash h b.value).2 := by
  obtain ⟨hr, hs⟩ := collision_bounds sha256 cChamHash_valid hh b.value
  have hr' := integerOfBlob_uint1024S hr
  have hs' := integerOfBlob_uint1024S hs
  rw [integerOfBlob_eq] at hr' hs'
  exact ⟨hr', hs'⟩

lemma collisionBlobs_lt {h : ℤ} (hh : 0 ≤ h ∧ h < cChamHash.q) (b : Uint256) :
    ((collisionBlobs sha256 h b).1.value : ℤ) < cChamHash.q ∧
    ((collisionBlobs sha256 h b).2.value : ℤ) < cChamHash.q := by
  obtain ⟨hr, hs⟩ := collision_bounds sha256 cChamHash_valid hh b.value
  obtain ⟨hr', hs'⟩ := collisionBlobs_value sha256 hh b
  rw [hr', hs']
  exact ⟨hr.2, hs.2⟩

lemma chamValue_collisionBlobs {h : ℤ} (hh : 0 ≤ h ∧ h < cChamHash.q) (b : Uint256) :
    chamValue sha256 b (collisionBlobs sha256 h b).1 (collisionBlobs sha256 h b).2 = h := by
  obtain ⟨hr, hs⟩ := collisionBlobs_value sha256 hh b
  have hg := cChamHash_valid.generator
  rw [chamValue_eq, hr, hs, residue_collision cChamHash_valid, Int.toNat_of_nonneg hg.1.le]
  exact foldResidue_add hh ⟨hg.1.le, hg.2⟩

/-- Steps 4 and 5: randomness that gives the outputs the value `hs`. -/
def collideOutputs (sha256 : Bytes → Uint256) (hs : ℤ) (tx : CMutableTransaction) :
    CMutableTransaction :=
  let rs := collisionBlobs sha256 hs (outputsHash sha256 tx)
  { tx with rscriptSig := rs.1, sscriptSig := rs.2 }

/-- Step 6: randomness that gives the transaction the value `h`. -/
def collideId (sha256 : Bytes → Uint256) (h : ℤ) (tx : CMutableTransaction) :
    CMutableTransaction :=
  let rs := collisionBlobs sha256 h (serializeHash sha256 tx SER_GETHASH PROTOCOL_VERSION)
  { tx with rValue := rs.1, sValue := rs.2 }

end Collide

section RedactEq

variable {tx : CMutableTransaction}

lemma constructTransaction_eq (hr : (tx.rValue.value : ℤ) < cChamHash.q)
    (hs : (tx.sValue.value : ℤ) < cChamHash.q) : constructTransaction sha256 tx = some tx := by
  simp [constructTransaction, computeHash_eq hr hs]

lemma null_lt : ((BaseBlob.null 128).value : ℤ) < cChamHash.q := by
  rw [BaseBlob.value_null]
  decide +kernel

lemma idBitHash_eq (tx : CMutableTransaction) :
    idBitHash sha256 tx = some (serializeHash sha256 tx SER_GETHASH PROTOCOL_VERSION) := by
  have h : constructTransaction sha256 tx.clearValue = some tx.clearValue :=
    constructTransaction_eq null_lt null_lt
  simp [idBitHash, h, serializeHash_clearValue]

lemma outputsBitHash_eq (tx : CMutableTransaction) :
    outputsBitHash sha256 tx = some (outputsHash sha256 tx) := by
  simp [outputsBitHash, signatureHash, outputsHash]

lemma hVer_collision {h : ℤ} (hh : 0 ≤ h ∧ h < cChamHash.q) (m₁ r₁ s₁ m₂ : ℤ) :
    hVer sha256 cChamHash h m₁ r₁ s₁ m₂ (collision sha256 cChamHash h m₂).1
      (collision sha256 cChamHash h m₂).2 = some () := by
  simp [hVer, cHash_collision _ cChamHash_valid hh]

lemma idValue_bounds (sha256 : Bytes → Uint256) (h : tx.RandomnessBelow) :
    0 ≤ idValue sha256 tx ∧ idValue sha256 tx < cChamHash.q := chamValue_bounds _ h.rValue _

lemma outputsValue_bounds (sha256 : Bytes → Uint256) (h : tx.RandomnessBelow) :
    0 ≤ outputsValue sha256 tx ∧ outputsValue sha256 tx < cChamHash.q :=
  chamValue_bounds _ h.rscriptSig _

/-- Step 3: the script of output `k` is replaced by filler. -/
def redactOutput (op : RedactOp) (k : ℕ) (tx : CMutableTransaction) : CMutableTransaction :=
  { tx with vout := setScriptPubKey tx.vout k (redactedScript op (scriptSizeAt tx.vout k)) }

def redactTo (sha256 : Bytes → Uint256) (h hs : ℤ) (op : RedactOp) (k : ℕ)
    (tx : CMutableTransaction) : CMutableTransaction :=
  collideId sha256 h (collideOutputs sha256 hs (redactOutput op k tx))

/-- The closed form of a redaction: no assertion fails, and the result depends on the old
randomness through the two values only. -/
theorem redactAt_eq (h : tx.RandomnessBelow) (op : RedactOp) (k : ℕ) :
    redactAt sha256 op k tx =
      some (redactTo sha256 (idValue sha256 tx) (outputsValue sha256 tx) op k tx) := by
  have hid := idValue_bounds sha256 h
  have hout := outputsValue_bounds sha256 h
  have hnew : constructTransaction sha256 (redactOutput op k tx) = some (redactOutput op k tx) :=
    constructTransaction_eq h.rValue h.sValue
  have hlast : constructTransaction sha256
      (redactTo sha256 (idValue sha256 tx) (outputsValue sha256 tx) op k tx) =
      some (redactTo sha256 (idValue sha256 tx) (outputsValue sha256 tx) op k tx) :=
    constructTransaction_eq (collisionBlobs_lt hid _).1 (collisionBlobs_lt hid _).2
  simp only [redactOutput] at hnew
  simp only [idValue, outputsValue] at hid hout
  -- without proofs for the unfolding steps the kernel would evaluate the powers
  simp -implicitDefEqProofs only [redactAt, idBitHash_eq, outputsBitHash_eq, bind_eq_bind,
    bind_some, cHash_blob _ h.rValue h.sValue, cHash_blob _ h.rscriptSig h.sscriptSig,
    hnew, hCol_eq cChamHash_valid, hVer_collision hout, hVer_collision hid]
  simp only [integerOfBlob_eq]
  simp only [redactTo, collideId, collideOutputs, collisionBlobs, redactOutput, idValue,
    outputsValue] at hlast ⊢
  exact hlast

lemma randomnessBelow_of_redactAt {newTX : CMutableTransaction} {op : RedactOp} {k : ℕ}
    (h : redactAt sha256 op k tx = some newTX) : tx.RandomnessBelow := by
  simp -implicitDefEqProofs only [redactAt, idBitHash_eq, outputsBitHash_eq, bind_eq_bind,
    bind_some, integerOfBlob_eq, bind_eq_some_iff] at h
  obtain ⟨_, hid, _, hout, -⟩ := h
  have h₁ := lt_of_cHash_eq_some hid
  have h₂ := lt_of_cHash_eq_some hout
  exact ⟨h₁.1, h₁.2, h₂.1, h₂.2⟩

lemma redact_eq_redactAt (op : RedactOp) {k : ℕ} (hk : firstOpReturn tx.vout = some k) :
    redact sha256 op tx = redactAt sha256 op k tx := by
  rw [redact, hk, bind_eq_bind, bind_some]

lemma redact_eq (h : tx.RandomnessBelow) (op : RedactOp) {k : ℕ}
    (hk : firstOpReturn tx.vout = some k) :
    redact sha256 op tx =
      some (redactTo sha256 (idValue sha256 tx) (outputsValue sha256 tx) op k tx) := by
  rw [redact_eq_redactAt op hk, redactAt_eq h]

variable {h hs : ℤ} {op : RedactOp} {k : ℕ}

lemma redactTo_randomnessBelow (sha256 : Bytes → Uint256) (op : RedactOp) (k : ℕ) (tx : CMutableTransaction)
    (hh : 0 ≤ h ∧ h < cChamHash.q) (hhs : 0 ≤ hs ∧ hs < cChamHash.q) :
    (redactTo sha256 h hs op k tx).RandomnessBelow where
  rValue := (collisionBlobs_lt hh _).1
  sValue := (collisionBlobs_lt hh _).2
  rscriptSig := (collisionBlobs_lt hhs _).1
  sscriptSig := (collisionBlobs_lt hhs _).2

lemma serializeHash_collideId (h : ℤ) (tx : CMutableTransaction) (nVersion : ℕ) :
    serializeHash sha256 (collideId sha256 h tx) SER_GETHASH nVersion =
      serializeHash sha256 tx SER_GETHASH nVersion := by
  rw [← serializeHash_clearValue, ← serializeHash_clearValue tx]
  rfl

lemma idValue_redactTo (hh : 0 ≤ h ∧ h < cChamHash.q) :
    idValue sha256 (redactTo sha256 h hs op k tx) = h := by
  rw [redactTo, idValue, serializeHash_collideId]
  exact chamValue_collisionBlobs hh _

lemma outputsValue_redactTo (hhs : 0 ≤ hs ∧ hs < cChamHash.q) :
    outputsValue sha256 (redactTo sha256 h hs op k tx) = hs :=
  chamValue_collisionBlobs hhs _

lemma serialize_of_not_hasWitness (hw : tx.hasWitness = false) (nType v v' : ℕ) :
    tx.serialize ⟨nType, v⟩ = tx.serialize ⟨nType, v'⟩ := by
  simp [CMutableTransaction.serialize, hw, SerStream.forHash]

lemma strippedValue_of_not_hasWitness (hw : tx.hasWitness = false) :
    strippedValue sha256 tx = idValue sha256 tx := by
  rw [strippedValue, idValue, serializeHash, serializeHash, serialize_of_not_hasWitness hw]

lemma hasWitness_redactTo : (redactTo sha256 h hs op k tx).hasWitness = tx.hasWitness := rfl

end RedactEq

end MutableBitcoin
