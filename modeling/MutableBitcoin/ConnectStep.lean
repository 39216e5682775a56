import MutableBitcoin.ConnectBlock

/-!
# One step of the loop

What a transaction that passes its checks has shown, and when a step can end the process.
-/

namespace MutableBitcoin
open Lib CCoinsViewCache Bool List

variable {sha256 : Bytes → Uint256} {ctx : ConnectContext sha256}

section CheckBlock

lemma checkTransaction_ok {tx : CMutableTransaction} {u : Unit}
    (h : checkTransaction tx false = .ok u) :
    tx.vin ≠ [] ∧ tx.getSerializeSize strippedStream * WITNESS_SCALE_FACTOR ≤ MAX_BLOCK_WEIGHT ∧
      SumsInRange 0 (tx.vout.map (·.nValue)) := by
  simp only [checkTransaction, unit_bind_eq_ok_iff, rejectIf_eq_ok_iff, isEmpty_eq_false_iff,
    decide_eq_false_iff_not, not_lt] at h
  obtain ⟨hvin, -, hsize, hout, -⟩ := h
  exact ⟨hvin, hsize, checkOutputs_eq_ok hout⟩

/-- What `CheckBlock` establishes, whichever of its optional checks are made. -/
structure Checked (block : CBlock sha256) : Prop where
  coinbase : ∃ cb rest, block.vtx = cb :: rest ∧ cb.isCoinBase = true ∧ ∀ tx ∈ rest, tx.isCoinBase = false
  size : block.getSerializeSize strippedStream * WITNESS_SCALE_FACTOR ≤ MAX_BLOCK_WEIGHT
  transactions : ∀ tx ∈ block.vtx, checkTransaction tx.toCMutableTransaction false = .ok ()

lemma checked_of_checkBlock {block block' : CBlock sha256} {params : ConsensusParams}
    {fCheckPOW fCheckMerkleRoot : Bool} (hf : block.fChecked = false)
    (h : checkBlock block params fCheckPOW fCheckMerkleRoot = .ok block') : Checked block := by
  simp only [checkBlock, hf, false_eq_true, if_false, unit_bind_eq_ok_iff, rejectIf_eq_ok_iff,
    or_eq_false_iff, decide_eq_false_iff_not, not_lt, not_eq_false', forM_eq_ok_iff] at h
  obtain ⟨-, -, ⟨⟨hne, -⟩, hsize⟩, hcb, hrest, htx, -⟩ := h
  refine ⟨?_, hsize, htx⟩
  cases hvtx : block.vtx with
  | nil => simp [hvtx] at hne
  | cons cb rest =>
    rw [hvtx] at hcb hrest
    exact ⟨cb, rest, rfl, by simpa using hcb, by simpa using hrest⟩

end CheckBlock

section Checks

def CCoinsViewCache.spentCoins (view : CCoinsViewCache) (vin : List CTxIn) : List Coin :=
  vin.map (fun txin => view.accessCoin txin.prevout)

/-- All inputs are there. -/
def CCoinsViewCache.HasInputs (view : CCoinsViewCache) (vin : List CTxIn) : Prop :=
  ∀ txin ∈ vin, view.haveCoin txin.prevout = true

/-- The witness flag comes with that for script hashes. -/
def ScriptFlags.Consistent (flags : ScriptFlags) : Prop := flags.witness = true → flags.p2sh = true

variable {view : CCoinsViewCache} {tx : CTransaction sha256}

lemma accessCoins_fetchAll (view : CCoinsViewCache) (vin : List CTxIn) :
    (view.fetchAll vin).accessCoins vin = (view.fetchAll vin, view.spentCoins vin) := by
  simp [accessCoins_eq, spentCoins]

lemma haveInputs_fetchAll {vin : List CTxIn} (h : view.HasInputs vin) :
    (view.fetchAll vin).haveInputs vin = (view.fetchAll vin, true) := by
  rw [haveInputs_of_have]
  · simp
  · intro txin htxin
    rw [haveCoin_fetchAll]
    exact h txin htxin

lemma checkLocks_of_hasInputs (h : view.HasInputs tx.vin) :
    checkLocks ctx view tx =
      (failIf (!ctx.sequenceLocks tx ((view.spentCoins tx.vin).map (·.nHeight)))
        100 "bad-txns-nonfinal" false >>= fun _ => .ok (view.fetchAll tx.vin)) := by
  unfold checkLocks
  rw [haveInputs_of_have h]
  simp only [Bool.not_true, accessCoins_fetchAll]
  rfl

lemma checkLocks_of_not_hasInputs (h : ¬view.HasInputs tx.vin) :
    checkLocks ctx view tx =
      .error (.reject ⟨100, "bad-txns-inputs-missingorspent", false⟩) := by
  have h' := haveInputs_of_not_have h
  unfold checkLocks
  cases hi : view.haveInputs tx.vin with
  | mk v b =>
    rw [hi] at h'
    simp only at h'
    simp only [h', Bool.not_false]
    rfl

lemma all_unspent (h : view.HasInputs tx.vin) :
    (view.spentCoins tx.vin).all (fun coin => !coin.isSpent) = true := by
  simp only [spentCoins, all_map, all_eq_true]
  intro txin htxin
  simp [isSpent_accessCoin (h txin htxin)]

def sigOpCost (flags : ScriptFlags) (tx : CTransaction sha256) (coins : List Coin) : ℕ :=
  getLegacySigOpCount tx.toCMutableTransaction * WITNESS_SCALE_FACTOR +
    (if flags.p2sh then getP2SHSigOpCount coins tx.vin * WITNESS_SCALE_FACTOR else 0) +
    (if flags.witness then countWitnessSigOpsOf coins tx.vin else 0)

lemma getTransactionSigOpCost_fetchAll {flags : ScriptFlags} (hcb : tx.isCoinBase = false)
    (h : view.HasInputs tx.vin) :
    getTransactionSigOpCost flags (view.fetchAll tx.vin) tx =
      (assertThat (tx.vin.isEmpty || !flags.witness || flags.p2sh) >>= fun _ =>
        .ok (view.fetchAll tx.vin, sigOpCost flags tx (view.spentCoins tx.vin))) := by
  unfold getTransactionSigOpCost
  rw [accessCoins_fetchAll]
  simp only [hcb, false_eq_true, if_false, all_unspent h]
  rfl

lemma getValueIn_fetchAll (view : CCoinsViewCache) (vin : List CTxIn) :
    (view.fetchAll vin).getValueIn vin =
      (view.fetchAll vin, ((view.spentCoins vin).map (·.out.nValue)).foldl (· + ·) 0) := by
  unfold getValueIn
  rw [accessCoins_fetchAll, foldl_map]

/-- The checks of the values in `CheckTxInputs`. -/
def checkValues (nSpendHeight : ℕ) (coins : List Coin) (vout : List CTxOut) : Except Failure Unit := do
  let nValueIn ← checkInputCoins nSpendHeight 0 coins
  let nValueOut ← getValueOut 0 vout
  failIf (nValueIn < nValueOut) 100 "bad-txns-in-belowout" false
  failIf (nValueIn - nValueOut < 0) 100 "bad-txns-fee-negative" false
  failIf (!moneyRange (0 + (nValueIn - nValueOut))) 100 "bad-txns-fee-outofrange" false

lemma bind_assoc_ok {α β γ : Type} (x : Except Failure α) (f : α → Except Failure β)
    (g : β → Except Failure γ) : (x >>= f >>= g) = (x >>= fun a => f a >>= g) := by
  cases x <;> rfl

lemma checkTxInputs_fetchAll (h : view.HasInputs tx.vin) (nSpendHeight : ℕ) :
    checkTxInputs (view.fetchAll tx.vin) tx nSpendHeight =
      (checkValues nSpendHeight (view.spentCoins tx.vin) tx.vout >>= fun _ =>
        .ok (view.fetchAll tx.vin)) := by
  unfold checkTxInputs checkValues
  rw [haveInputs_fetchAll h]
  simp only [Bool.not_true, accessCoins_fetchAll, bind_assoc_ok]
  rfl

/-- The lock and sigop checks of one transaction. -/
def checkSpend (ctx : ConnectContext sha256) (tx : CTransaction sha256) (coins : List Coin)
    (nSigOpsCost : ℕ) : Except Failure Unit := do
  failIf (!ctx.sequenceLocks tx (coins.map (·.nHeight))) 100 "bad-txns-nonfinal" false
  assertThat (tx.vin.isEmpty || !ctx.flags.witness || ctx.flags.p2sh)
  failIf (MAX_BLOCK_SIGOPS_COST < nSigOpsCost + sigOpCost ctx.flags tx coins) 100 "bad-blk-sigops" false
  let _ ← getValueOut 0 tx.vout
  checkValues ctx.nHeight coins tx.vout
  match ctx.checkScripts tx coins with
  | some r => throw (.reject r)
  | none => return ()

/-- The sum that `GetValueIn` forms. -/
def CCoinsViewCache.valueIn (view : CCoinsViewCache) (vin : List CTxIn) : CAmount :=
  ((view.spentCoins vin).map (·.out.nValue)).foldl (· + ·) 0

def ConnectState.afterChecks (st : ConnectState) (flags : ScriptFlags) (tx : CTransaction sha256)
    (nValueOut : CAmount) : ConnectState :=
  { st with
    view := st.view.fetchAll tx.vin
    nFees := st.nFees + (st.view.valueIn tx.vin - nValueOut)
    nSigOpsCost := st.nSigOpsCost + sigOpCost flags tx (st.view.spentCoins tx.vin) }

variable {st : ConnectState}

lemma checkFee_fetchAll {nValueOut : CAmount} (h : view.HasInputs tx.vin)
    (hout : getValueOut 0 tx.vout = .ok nValueOut) (nFees : CAmount) :
    checkFee ctx (view.fetchAll tx.vin) tx nFees =
      (checkValues ctx.nHeight (view.spentCoins tx.vin) tx.vout >>= fun _ =>
        match ctx.checkScripts tx (view.spentCoins tx.vin) with
        | some r => .error (.reject r)
        | none => .ok (view.fetchAll tx.vin, nFees + (view.valueIn tx.vin - nValueOut))) := by
  unfold checkFee
  rw [getValueIn_fetchAll, hout]
  simp only [checkTxInputs_fetchAll h, ok_bind, accessCoins_fetchAll, bind_assoc_ok]
  rfl

lemma checkConnect_of_hasInputs (ctx : ConnectContext sha256) {nValueOut : CAmount} (hcb : tx.isCoinBase = false)
    (hout : getValueOut 0 tx.vout = .ok nValueOut) (h : st.view.HasInputs tx.vin) :
    checkConnect ctx st tx =
      (checkSpend ctx tx (st.view.spentCoins tx.vin) st.nSigOpsCost >>= fun _ =>
        .ok (st.afterChecks ctx.flags tx nValueOut)) := by
  unfold checkConnect checkSpend
  simp only [hcb, false_eq_true, if_false, checkLocks_of_hasInputs h, hout, bind_assoc_ok,
    ok_bind, getTransactionSigOpCost_fetchAll hcb h, checkFee_fetchAll h hout]
  cases ctx.checkScripts tx (st.view.spentCoins tx.vin) <;> rfl

lemma checkConnect_of_not_hasInputs (ctx : ConnectContext sha256) (hcb : tx.isCoinBase = false) (h : ¬st.view.HasInputs tx.vin) :
    checkConnect ctx st tx =
      .error (.reject ⟨100, "bad-txns-inputs-missingorspent", false⟩) := by
  unfold checkConnect
  simp only [hcb, false_eq_true, if_false, checkLocks_of_not_hasInputs h]
  rfl

lemma checkConnect_coinbase (hcb : tx.isCoinBase = true) :
    checkConnect ctx st tx =
      (failIf (MAX_BLOCK_SIGOPS_COST < st.nSigOpsCost +
          getLegacySigOpCount tx.toCMutableTransaction * WITNESS_SCALE_FACTOR)
        100 "bad-blk-sigops" false >>= fun _ =>
        .ok { st with nSigOpsCost := st.nSigOpsCost +
          getLegacySigOpCount tx.toCMutableTransaction * WITNESS_SCALE_FACTOR }) := by
  unfold checkConnect getTransactionSigOpCost
  simp only [hcb, if_true, ok_bind]
  rfl

end Checks

end MutableBitcoin
