import MutableBitcoin.BlockFile

/-!
# What a redaction does to witness signatures

For `SIGVERSION_WITNESS_V0` the outputs are hashed as they are, without a chameleon hash.
-/

namespace MutableBitcoin
open Lib List CTransactionSignatureSerializer

variable {sha256 : Bytes → Uint256} {tx tx' : CMutableTransaction} {op : RedactOp} {k nIn : ℕ} {nHashType : Int32}

section Message

def coveredOutputs (tx : CMutableTransaction) (nIn : ℕ) (nHashType : Int32) : Option Bytes :=
  if baseHashType nHashType = SIGHASH_NONE then none
  else if baseHashType nHashType = SIGHASH_SINGLE then (tx.vout[nIn]?).map CTxOut.serialize
  else some (tx.vout.flatMap CTxOut.serialize)

/-- The message of the digest that a witness signature signs, for the input `txin`. -/
def witnessMessage (sha256 : Bytes → Uint256) (scriptCode : CScript) (tx : CMutableTransaction) (txin : CTxIn)
    (nIn : ℕ) (nHashType : Int32) (amount : CAmount) : Bytes :=
  let acp := hasAnyoneCanPay nHashType
  let partial' := baseHashType nHashType == SIGHASH_SINGLE || baseHashType nHashType == SIGHASH_NONE
  let hashPrevouts := if acp then BaseBlob.null 32 else getPrevoutHash sha256 tx
  let hashSequence := if acp || partial' then BaseBlob.null 32 else getSequenceHash sha256 tx
  let hashOutputs := ((coveredOutputs tx nIn nHashType).map (hash256 sha256)).getD (BaseBlob.null 32)
  serializeInt32 tx.nVersion ++ hashPrevouts.data ++ hashSequence.data ++ txin.prevout.serialize ++
    serializeBytes scriptCode ++ serializeInt64 amount ++ serializeUInt32 txin.nSequence ++ hashOutputs.data ++
    serializeUInt32 tx.nLockTime ++ serializeInt32 nHashType

def cacheOf (sha256 : Bytes → Uint256) (tx : CMutableTransaction) (fCached : Bool) :
    Option PrecomputedTransactionData :=
  if fCached then some (precomputedTransactionData sha256 tx) else none

lemma signatureHash_witness {txin : CTxIn} (hin : tx.vin[nIn]? = some txin) (scriptCode : CScript) (amount : CAmount)
    (fCached : Bool) :
    signatureHash sha256 scriptCode tx nIn nHashType amount .SIGVERSION_WITNESS_V0 (cacheOf sha256 tx fCached) 0 =
      some (hash256 sha256 (witnessMessage sha256 scriptCode tx txin nIn nHashType amount)) := by
  have hne : SIGHASH_SINGLE ≠ SIGHASH_NONE := by decide
  unfold signatureHash
  rw [if_pos ⟨rfl, rfl⟩]
  unfold witnessSignatureHash witnessMessage coveredOutputs cacheOf precomputedTransactionData
  rw [hin]
  by_cases hnone : baseHashType nHashType = SIGHASH_NONE
  · cases fCached <;> cases hasAnyoneCanPay nHashType <;> simp [hnone, hne.symm]
  · by_cases hsingle : baseHashType nHashType = SIGHASH_SINGLE
    · cases tx.vout[nIn]? <;> cases fCached <;> cases hasAnyoneCanPay nHashType <;> simp [hsingle, hne]
    · cases fCached <;> cases hasAnyoneCanPay nHashType <;> simp [hnone, hsingle, getOutputsHash]

end Message

section Redaction

/-- Two messages with one hash. -/
def HashCollides (sha256 : Bytes → Uint256) (m m' : Bytes) : Prop := m ≠ m' ∧ hash256 sha256 m = hash256 sha256 m'

lemma hash256_eq_iff {m m' : Bytes} :
    hash256 sha256 m = hash256 sha256 m' ↔ m = m' ∨ HashCollides sha256 m m' := by
  constructor
  · intro heq
    by_cases hm : m = m'
    · exact Or.inl hm
    · exact Or.inr ⟨hm, heq⟩
  · rintro (rfl | ⟨-, heq⟩)
    · rfl
    · exact heq

lemma serializeBytes_injective : Function.Injective serializeBytes := by
  intro v w h
  have hlen : v.length = w.length := by
    have htotal := congrArg List.length h
    rcases lt_trichotomy v.length w.length with hlt | heq | hlt
    · have hless := length_serializeBytes_lt hlt
      omega
    · exact heq
    · have hless := length_serializeBytes_lt hlt
      omega
  unfold serializeBytes at h
  rw [hlen] at h
  exact append_cancel_left h

lemma serialize_setScript_iff {txout : CTxOut} {script : CScript} :
    CTxOut.serialize { txout with scriptPubKey := script } = txout.serialize ↔ script = txout.scriptPubKey := by
  unfold CTxOut.serialize
  dsimp only
  rw [append_cancel_left_eq]
  exact serializeBytes_injective.eq_iff

/-- The hash type leaves out the output with index `k`, or a redaction does not change its script. -/
def RedactionUncovered (op : RedactOp) (k : ℕ) (tx : CMutableTransaction) (nIn : ℕ) (nHashType : Int32) : Prop :=
  baseHashType nHashType = SIGHASH_NONE ∨ (baseHashType nHashType = SIGHASH_SINGLE ∧ nIn ≠ k) ∨
    (tx.vout[k]?).map CTxOut.scriptPubKey = some (redactedScript op (scriptSizeAt tx.vout k))

lemma coveredOutputs_redactOutput_iff (hk : k < tx.vout.length) :
    coveredOutputs (redactOutput op k tx) nIn nHashType = coveredOutputs tx nIn nHashType ↔
      RedactionUncovered op k tx nIn nHashType := by
  have hget : tx.vout[k]? = some tx.vout[k] := getElem?_eq_getElem hk
  set script := redactedScript op (scriptSizeAt tx.vout k) with hscript
  have hvout : (redactOutput op k tx).vout = tx.vout.modify k (fun txout => { txout with scriptPubKey := script }) := rfl
  have hunchanged : CTxOut.serialize { tx.vout[k] with scriptPubKey := script } = tx.vout[k].serialize ↔
      (tx.vout[k]?).map CTxOut.scriptPubKey = some script := by
    rw [serialize_setScript_iff, hget, Option.map_some, Option.some_inj, eq_comm]
  unfold coveredOutputs RedactionUncovered
  rw [hvout, ← hscript, ← hunchanged]
  by_cases hnone : baseHashType nHashType = SIGHASH_NONE
  · rw [if_pos hnone, if_pos hnone]
    exact ⟨fun _ => Or.inl hnone, fun _ => rfl⟩
  rw [if_neg hnone, if_neg hnone, or_iff_right hnone]
  by_cases hsingle : baseHashType nHashType = SIGHASH_SINGLE
  · rw [if_pos hsingle, if_pos hsingle]
    by_cases hn : nIn = k
    · subst hn
      rw [getElem?_modify_eq, hget, or_iff_right (fun hno => hno.2 rfl)]
      exact Option.some_inj
    · rw [getElem?_modify_ne _ _ (Ne.symm hn)]
      exact ⟨fun _ => Or.inl ⟨hsingle, hn⟩, fun _ => rfl⟩
  · rw [if_neg hsingle, if_neg hsingle, or_iff_right (fun hno => hsingle hno.1), Option.some_inj]
    have hsplit : tx.vout = tx.vout.take k ++ tx.vout[k] :: tx.vout.drop (k + 1) := by simp
    rw [modify_eq_take_cons_drop hk]
    conv_lhs =>
      rhs
      rw [hsplit]
    rw [flatMap_append, flatMap_append, flatMap_cons, flatMap_cons, append_cancel_left_eq,
      append_cancel_right_eq]

lemma SameSkeleton.witnessMessage_eq_iff (h : SameSkeleton tx tx') (scriptCode : CScript) (txin : CTxIn)
    (amount : CAmount) :
    witnessMessage sha256 scriptCode tx txin nIn nHashType amount =
        witnessMessage sha256 scriptCode tx' txin nIn nHashType amount ↔
      ((coveredOutputs tx nIn nHashType).map (hash256 sha256)).getD (BaseBlob.null 32) =
        ((coveredOutputs tx' nIn nHashType).map (hash256 sha256)).getD (BaseBlob.null 32) := by
  unfold witnessMessage getPrevoutHash getSequenceHash
  rw [h.nVersion, h.vin, h.nLockTime]
  dsimp only
  rw [append_cancel_right_eq, append_cancel_right_eq, append_cancel_left_eq]
  exact ⟨fun heq => BaseBlob.ext heq, fun heq => by rw [heq]⟩

lemma isSome_coveredOutputs_redactOutput (op : RedactOp) (k : ℕ) (tx : CMutableTransaction) (nIn : ℕ)
    (nHashType : Int32) :
    (coveredOutputs (redactOutput op k tx) nIn nHashType).isSome = (coveredOutputs tx nIn nHashType).isSome := by
  unfold coveredOutputs redactOutput setScriptPubKey
  dsimp only
  split_ifs
  · rfl
  · rw [Option.isSome_map, Option.isSome_map, getElem?_modify]
    exact Option.isSome_map
  · rfl

lemma hashOutputs_redactOutput_iff (hk : k < tx.vout.length) :
    ((coveredOutputs (redactOutput op k tx) nIn nHashType).map (hash256 sha256)).getD (BaseBlob.null 32) =
        ((coveredOutputs tx nIn nHashType).map (hash256 sha256)).getD (BaseBlob.null 32) ↔
      RedactionUncovered op k tx nIn nHashType ∨
        ∃ m ∈ coveredOutputs (redactOutput op k tx) nIn nHashType, ∃ m' ∈ coveredOutputs tx nIn nHashType,
          HashCollides sha256 m m' := by
  rw [← coveredOutputs_redactOutput_iff hk]
  have hsome := isSome_coveredOutputs_redactOutput op k tx nIn nHashType
  cases hnew : coveredOutputs (redactOutput op k tx) nIn nHashType with
  | none =>
    rw [hnew] at hsome
    have hold : coveredOutputs tx nIn nHashType = none := by
      rw [← Option.not_isSome_iff_eq_none, ← hsome]
      exact Bool.false_ne_true
    rw [hold]
    simp
  | some m =>
    rw [hnew] at hsome
    obtain ⟨m', hm'⟩ := Option.isSome_iff_exists.mp hsome.symm
    rw [hm']
    simp only [Option.map_some, Option.getD_some, Option.some_inj, Option.mem_some_iff, exists_eq_left']
    exact hash256_eq_iff

lemma vin_redactTo (h hs : ℤ) : (redactTo sha256 h hs op k tx).vin = tx.vin := by
  simp only [redactTo, collideId, collideOutputs, redactOutput]

lemma witnessMessage_redactTo (h hs : ℤ) (scriptCode : CScript) (txin : CTxIn) (amount : CAmount) :
    witnessMessage sha256 scriptCode (redactTo sha256 h hs op k tx) txin nIn nHashType amount =
      witnessMessage sha256 scriptCode (redactOutput op k tx) txin nIn nHashType amount := by
  have hsame : SameSkeleton (redactTo sha256 h hs op k tx) (redactOutput op k tx) := ⟨rfl, rfl, rfl, rfl⟩
  rw [hsame.witnessMessage_eq_iff]
  rfl

/-- Some hash under the signature collides. -/
def WitnessCollides (sha256 : Bytes → Uint256) (op : RedactOp) (k : ℕ) (tx : CMutableTransaction)
    (scriptCode : CScript) (nIn : ℕ) (nHashType : Int32) (amount : CAmount) : Prop :=
  (∃ m ∈ coveredOutputs (redactOutput op k tx) nIn nHashType, ∃ m' ∈ coveredOutputs tx nIn nHashType,
    HashCollides sha256 m m') ∨
  ∃ txin ∈ tx.vin[nIn]?, HashCollides sha256
    (witnessMessage sha256 scriptCode (redactOutput op k tx) txin nIn nHashType amount)
    (witnessMessage sha256 scriptCode tx txin nIn nHashType amount)

/-- A redaction keeps a witness signature hash exactly if the hash type leaves the redacted output out, or
the script of the output stays as it was. Apart from this there are only collisions of the digest. -/
theorem redact_keeps_witnessSignatureHash_iff (sha256 : Bytes → Uint256) (op : RedactOp) (k : ℕ)
    (oldTX : CMutableTransaction) (hk : firstOpReturn oldTX.vout = some k) (h : oldTX.RandomnessBelow) :
    ∃ newTX, redact sha256 op oldTX = some newTX ∧
      ∀ scriptCode nIn nHashType amount fCached, nIn < oldTX.vin.length →
        (signatureHash sha256 scriptCode newTX nIn nHashType amount .SIGVERSION_WITNESS_V0
            (cacheOf sha256 newTX fCached) 0 =
          signatureHash sha256 scriptCode oldTX nIn nHashType amount .SIGVERSION_WITNESS_V0
            (cacheOf sha256 oldTX fCached) 0 ↔
        RedactionUncovered op k oldTX nIn nHashType ∨
          WitnessCollides sha256 op k oldTX scriptCode nIn nHashType amount) := by
  refine ⟨_, redact_eq h op hk, fun scriptCode nIn nHashType amount fCached hin => ?_⟩
  have hlt : k < oldTX.vout.length := (findIdx?_eq_some_iff_findIdx_eq.mp hk).1
  have hskeleton : SameSkeleton (redactOutput op k oldTX) oldTX :=
    ⟨rfl, rfl, by simp [redactOutput, setScriptPubKey], rfl⟩
  have hget : oldTX.vin[nIn]? = some oldTX.vin[nIn] := getElem?_eq_getElem hin
  have hget' : (redactTo sha256 (idValue sha256 oldTX) (outputsValue sha256 oldTX) op k oldTX).vin[nIn]? =
      some oldTX.vin[nIn] := by
    rw [vin_redactTo, hget]
  rw [signatureHash_witness hget', signatureHash_witness hget, witnessMessage_redactTo, Option.some_inj,
    hash256_eq_iff, hskeleton.witnessMessage_eq_iff]
  rw [hashOutputs_redactOutput_iff hlt, or_assoc]
  unfold WitnessCollides
  rw [hget]
  simp only [Option.mem_some_iff, exists_eq_left']

theorem redact_keeps_witnessSignatureHash_dataTransaction :
    ∃ newTX, redact cSHA256 .hide (dataTransaction dataScript [[1]]) = some newTX ∧
      ∀ scriptCode nIn nHashType amount fCached, nIn < (dataTransaction dataScript [[1]]).vin.length →
        (signatureHash cSHA256 scriptCode newTX nIn nHashType amount .SIGVERSION_WITNESS_V0
            (cacheOf cSHA256 newTX fCached) 0 =
          signatureHash cSHA256 scriptCode (dataTransaction dataScript [[1]]) nIn nHashType amount
            .SIGVERSION_WITNESS_V0 (cacheOf cSHA256 (dataTransaction dataScript [[1]]) fCached) 0 ↔
        RedactionUncovered .hide 0 (dataTransaction dataScript [[1]]) nIn nHashType ∨
          WitnessCollides cSHA256 .hide 0 (dataTransaction dataScript [[1]]) scriptCode nIn nHashType amount) :=
  redact_keeps_witnessSignatureHash_iff cSHA256 .hide 0 (dataTransaction dataScript [[1]]) rfl
    (dataTransaction_randomnessBelow dataScript [[1]])

set_option maxRecDepth 100000 in
/-- A signature with `SIGHASH_ALL` does not survive. -/
theorem redact_changes_witnessSignatureHash :
    (dataTransaction dataScript [[1]]).RandomnessBelow ∧
    ∃ newTX, redact cSHA256 .hide (dataTransaction dataScript [[1]]) = some newTX ∧
      signatureHash cSHA256 [] newTX 0 1 0 .SIGVERSION_WITNESS_V0 none 0 ≠
        signatureHash cSHA256 [] (dataTransaction dataScript [[1]]) 0 1 0 .SIGVERSION_WITNESS_V0 none 0 := by
  have h := dataTransaction_randomnessBelow dataScript [[1]]
  let txin : CTxIn := ⟨⟨⟨List.replicate 32 7, rfl⟩, 0⟩, [], SEQUENCE_FINAL, [[1]]⟩
  have hdigest : ∀ tx : CMutableTransaction, tx.vin = [txin] →
      signatureHash cSHA256 [] tx 0 1 0 .SIGVERSION_WITNESS_V0 none 0 =
        some (hash256 cSHA256 (witnessMessage cSHA256 [] tx txin 0 1 0)) := by
    intro tx htx
    have hget : tx.vin[0]? = some txin := by rw [htx]; rfl
    exact signatureHash_witness hget [] 0 false
  refine ⟨h, _, redact_eq h .hide rfl, ?_⟩
  rw [hdigest _ (vin_redactTo _ _), hdigest _ rfl, witnessMessage_redactTo]
  decide +kernel

end Redaction

end MutableBitcoin

/-!
## The outputs under a legacy signature

`SIGHASH_NONE` and `SIGHASH_SINGLE` sign every output, apart from collisions of the hashes.
-/

namespace MutableBitcoin
open Lib List CTransactionSignatureSerializer

variable {sha256 : Bytes → Uint256} {tx : CMutableTransaction} {vout' : List CTxOut} {nIn : ℕ} {nHashType : Int32}

/-- The hash type leaves every change of the outputs free that leads from `vout` to `vout'`: the base
type is `SIGHASH_NONE`, or it is `SIGHASH_SINGLE` and the output at `nIn` stays. -/
def OutputsLeftFree (nHashType : Int32) (nIn : ℕ) (vout vout' : List CTxOut) : Prop :=
  baseHashType nHashType = SIGHASH_NONE ∨
    baseHashType nHashType = SIGHASH_SINGLE ∧ nIn < vout.length ∧ vout'[nIn]? = vout[nIn]?

/-- Two messages with one chameleon hash under the same randomness. -/
def ChameleonCollides (sha256 : Bytes → Uint256) (r s : Uint1024) (bitHash bitHash' : Uint256) : Prop :=
  bitHash ≠ bitHash' ∧ chamHash sha256 bitHash r s = chamHash sha256 bitHash' r s

/-- The message of the digest that a legacy signature signs, behind the chameleon hash `chamHashtxo` of
the outputs. -/
def legacyMessage (scriptCode : CScript) (tx : CMutableTransaction) (nIn : ℕ) (nHashType : Int32)
    (chamHashtxo : Uint256) : Bytes :=
  chamHashtxo.data ++ serialize ⟨tx, scriptCode, nIn, nHashType⟩ ++
    serializeInt32 nHashType

def outputsChamHash (sha256 : Bytes → Uint256) (tx : CMutableTransaction) : Uint256 :=
  valueHash sha256 (outputsValue sha256 tx)

variable (sha256) in
lemma chamHash_outputs (h : tx.RandomnessBelow) :
    chamHash sha256 (outputsHash sha256 tx) tx.rscriptSig tx.sscriptSig =
      some (outputsChamHash sha256 tx) :=
  chamHash_eq sha256 _ h.rscriptSig h.sscriptSig

lemma signatureHash_legacy (h : tx.RandomnessBelow) (hin : nIn < tx.vin.length)
    (hsingle : baseHashType nHashType = SIGHASH_SINGLE → nIn < tx.vout.length) (scriptCode : CScript)
    (amount : CAmount) (cache : Option PrecomputedTransactionData) :
    signatureHash sha256 scriptCode tx nIn nHashType amount .SIGVERSION_BASE cache 0 =
      some (hash256 sha256 (legacyMessage scriptCode tx nIn nHashType (outputsChamHash sha256 tx))) := by
  have hcham := chamHash_outputs sha256 h
  simp only [outputsHash] at hcham
  unfold signatureHash
  rw [if_neg (by simp), if_neg (by omega), if_neg (by rintro ⟨-, hs, hout⟩; exact absurd (hsingle hs) (by omega))]
  simp only [hcham, OfNat.zero_ne_ofNat, zero_ne_one, if_false, Option.bind_eq_bind, Option.bind_some]
  rfl

lemma OutputsLeftFree.serialize (hfree : OutputsLeftFree nHashType nIn tx.vout vout') (scriptCode : CScript) :
    serialize ⟨{ tx with vout := vout' }, scriptCode, nIn, nHashType⟩ =
      serialize ⟨tx, scriptCode, nIn, nHashType⟩ := by
  have hin : serializeInput
      ⟨{ tx with vout := vout' }, scriptCode, nIn, nHashType⟩ =
      serializeInput ⟨tx, scriptCode, nIn, nHashType⟩ := rfl
  unfold CTransactionSignatureSerializer.serialize
  rw [hin]
  rcases hfree with hnone | ⟨hsingle, -⟩
  · have hflag : ∀ tx', fHashNone ⟨tx', scriptCode, nIn, nHashType⟩ = true := by
      intro tx'
      simp [fHashNone, hnone]
    simp only [hflag, if_true]
    rfl
  · have hflag : ∀ tx', fHashSingle ⟨tx', scriptCode, nIn, nHashType⟩ = true := by
      intro tx'
      simp [fHashSingle, hsingle]
    simp only [hflag, if_true]
    rfl

/-- Some hash of the outputs collides. -/
def OutputsCollide (sha256 : Bytes → Uint256) (tx : CMutableTransaction) (vout' : List CTxOut) : Prop :=
  HashCollides sha256 (vout'.flatMap CTxOut.serialize) (tx.vout.flatMap CTxOut.serialize) ∨
    ChameleonCollides sha256 tx.rscriptSig tx.sscriptSig (outputsHash sha256 { tx with vout := vout' })
      (outputsHash sha256 tx)

lemma outputsChamHash_eq_iff (h : tx.RandomnessBelow) :
    outputsChamHash sha256 { tx with vout := vout' } = outputsChamHash sha256 tx ↔
      vout'.flatMap CTxOut.serialize = tx.vout.flatMap CTxOut.serialize ∨ OutputsCollide sha256 tx vout' := by
  have h' : ({ tx with vout := vout' } : CMutableTransaction).RandomnessBelow := ⟨h.1, h.2, h.3, h.4⟩
  have hbit : outputsHash sha256 { tx with vout := vout' } = outputsHash sha256 tx ↔
      vout'.flatMap CTxOut.serialize = tx.vout.flatMap CTxOut.serialize ∨
        HashCollides sha256 (vout'.flatMap CTxOut.serialize) (tx.vout.flatMap CTxOut.serialize) :=
    hash256_eq_iff
  have hcham : outputsChamHash sha256 { tx with vout := vout' } = outputsChamHash sha256 tx ↔
      chamHash sha256 (outputsHash sha256 { tx with vout := vout' }) tx.rscriptSig tx.sscriptSig =
        chamHash sha256 (outputsHash sha256 tx) tx.rscriptSig tx.sscriptSig := by
    rw [chamHash_outputs sha256 h, ← Option.some_inj]
    exact Eq.congr (chamHash_outputs sha256 h').symm rfl
  rw [hcham]
  unfold OutputsCollide ChameleonCollides
  rw [← or_assoc, ← hbit]
  constructor
  · intro heq
    by_cases hsame : outputsHash sha256 { tx with vout := vout' } = outputsHash sha256 tx
    · exact Or.inl hsame
    · exact Or.inr ⟨hsame, heq⟩
  · rintro (hsame | ⟨-, heq⟩)
    · rw [hsame]
    · exact heq

/-- A change of outputs that the hash type leaves free keeps a legacy signature hash exactly if it
changes no byte of the outputs. Apart from this there are only collisions of the hashes. -/
theorem signatureHash_outputsLeftFree_iff (sha256 : Bytes → Uint256) (tx : CMutableTransaction)
    (vout' : List CTxOut) (scriptCode : CScript) (nIn : ℕ) (nHashType : Int32) (amount : CAmount)
    (cache cache' : Option PrecomputedTransactionData) (h : tx.RandomnessBelow) (hin : nIn < tx.vin.length)
    (hfree : OutputsLeftFree nHashType nIn tx.vout vout') :
    signatureHash sha256 scriptCode { tx with vout := vout' } nIn nHashType amount .SIGVERSION_BASE cache' 0 =
        signatureHash sha256 scriptCode tx nIn nHashType amount .SIGVERSION_BASE cache 0 ↔
      vout'.flatMap CTxOut.serialize = tx.vout.flatMap CTxOut.serialize ∨ OutputsCollide sha256 tx vout' ∨
        HashCollides sha256
          (legacyMessage scriptCode tx nIn nHashType (outputsChamHash sha256 { tx with vout := vout' }))
          (legacyMessage scriptCode tx nIn nHashType (outputsChamHash sha256 tx)) := by
  have hne : SIGHASH_SINGLE ≠ SIGHASH_NONE := by decide
  have hsingle : baseHashType nHashType = SIGHASH_SINGLE → nIn < tx.vout.length ∧ nIn < vout'.length := by
    intro hs
    obtain hnone | ⟨-, hlt, hget⟩ := hfree
    · exact absurd (hs.symm.trans hnone) hne
    · refine ⟨hlt, ?_⟩
      rw [getElem?_eq_getElem hlt] at hget
      exact (List.getElem?_eq_some_iff.mp hget).1
  have hmessage : legacyMessage scriptCode { tx with vout := vout' } nIn nHashType
      (outputsChamHash sha256 { tx with vout := vout' }) =
      legacyMessage scriptCode tx nIn nHashType (outputsChamHash sha256 { tx with vout := vout' }) := by
    unfold legacyMessage
    rw [hfree.serialize]
  have hcancel : legacyMessage scriptCode tx nIn nHashType (outputsChamHash sha256 { tx with vout := vout' }) =
      legacyMessage scriptCode tx nIn nHashType (outputsChamHash sha256 tx) ↔
      outputsChamHash sha256 { tx with vout := vout' } = outputsChamHash sha256 tx := by
    unfold legacyMessage
    rw [append_cancel_right_eq, append_cancel_right_eq]
    exact ⟨fun heq => BaseBlob.ext heq, fun heq => by rw [heq]⟩
  have h' : CMutableTransaction.RandomnessBelow { tx with vout := vout' } := ⟨h.1, h.2, h.3, h.4⟩
  rw [signatureHash_legacy h' hin (fun hs => (hsingle hs).2),
    signatureHash_legacy h hin (fun hs => (hsingle hs).1), hmessage, Option.some_inj, hash256_eq_iff, hcancel,
    outputsChamHash_eq_iff h, or_assoc]

theorem signatureHash_outputsLeftFree_dataTransaction :
    signatureHash cSHA256 [] { dataTransaction dataScript [] with vout := [] } 0 2 0 .SIGVERSION_BASE none 0 =
        signatureHash cSHA256 [] (dataTransaction dataScript []) 0 2 0 .SIGVERSION_BASE none 0 ↔
      ([] : List CTxOut).flatMap CTxOut.serialize =
          (dataTransaction dataScript []).vout.flatMap CTxOut.serialize ∨
        OutputsCollide cSHA256 (dataTransaction dataScript []) [] ∨
        HashCollides cSHA256
          (legacyMessage [] (dataTransaction dataScript []) 0 2
            (outputsChamHash cSHA256 { dataTransaction dataScript [] with vout := [] }))
          (legacyMessage [] (dataTransaction dataScript []) 0 2
            (outputsChamHash cSHA256 (dataTransaction dataScript []))) :=
  signatureHash_outputsLeftFree_iff cSHA256 (dataTransaction dataScript []) [] [] 0 2 0 none none
    (dataTransaction_randomnessBelow dataScript []) (by decide) (Or.inl (by decide))

set_option maxRecDepth 100000 in
/-- A signature with `SIGHASH_NONE` does not survive the loss of an output, and one with
`SIGHASH_SINGLE` not the addition of an output behind that of its input. -/
theorem signatureHash_covers_free_outputs :
    (dataTransaction dataScript []).RandomnessBelow ∧ 0 < (dataTransaction dataScript []).vin.length ∧
    signatureHash cSHA256 [] { dataTransaction dataScript [] with vout := [] } 0 2 0 .SIGVERSION_BASE none 0 ≠
      signatureHash cSHA256 [] (dataTransaction dataScript []) 0 2 0 .SIGVERSION_BASE none 0 ∧
    OutputsLeftFree 3 0 (dataTransaction dataScript []).vout
      ((dataTransaction dataScript []).vout ++ [⟨0, []⟩]) ∧
    signatureHash cSHA256 [] { dataTransaction dataScript [] with
          vout := (dataTransaction dataScript []).vout ++ [⟨0, []⟩] } 0 3 0 .SIGVERSION_BASE none 0 ≠
      signatureHash cSHA256 [] (dataTransaction dataScript []) 0 3 0 .SIGVERSION_BASE none 0 := by
  have h := dataTransaction_randomnessBelow dataScript []
  refine ⟨h, by decide, ?_, Or.inr ⟨by decide, by decide, rfl⟩, ?_⟩
  · have hnone : CMutableTransaction.RandomnessBelow { dataTransaction dataScript [] with vout := [] } :=
      ⟨h.1, h.2, h.3, h.4⟩
    rw [signatureHash_legacy hnone (by decide) (by decide), signatureHash_legacy h (by decide) (by decide)]
    decide +kernel
  · have hmore : CMutableTransaction.RandomnessBelow { dataTransaction dataScript [] with
        vout := (dataTransaction dataScript []).vout ++ [⟨0, []⟩] } := ⟨h.1, h.2, h.3, h.4⟩
    rw [signatureHash_legacy hmore (by decide) (by decide), signatureHash_legacy h (by decide) (by decide)]
    decide +kernel

end MutableBitcoin
