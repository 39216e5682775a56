import MutableBitcoin.Coins

/-!
# Connecting the transactions of a block

The loop of `ConnectBlock` over the transactions and the check of the coinbase value, with
`GetTransactionSigOpCost` and `CheckTxInputs` of `consensus/tx_verify.cpp`. Sequence locks and
scripts are checked by arbitrary functions of the transaction and the coins it spends.
-/

namespace MutableBitcoin
open Lib Bool List Int64

def COINBASE_MATURITY : ℤ := 100

/-- The flags that decide which signature operations count. -/
structure ScriptFlags where
  p2sh : Bool
  witness : Bool

/-- What the loop reads of the index, with the two checks that are arbitrary functions. -/
structure ConnectContext (sha256 : Bytes → Uint256) where
  nHeight : ℕ
  flags : ScriptFlags
  sequenceLocks : CTransaction sha256 → List ℕ → Bool
  checkScripts : CTransaction sha256 → List Coin → Option Reject

/-- The variables of the loop. -/
structure ConnectState where
  view : CCoinsViewCache
  nFees : CAmount
  nSigOpsCost : ℕ
  vtxundo : List (List Coin)

/-- `GetValueOut` throws on a sum out of range. -/
def getValueOut (nValueOut : CAmount) : List CTxOut → Except Failure CAmount
  | [] => .ok nValueOut
  | txout :: vout =>
    let nValueOut := nValueOut + txout.nValue
    if !moneyRange txout.nValue || !moneyRange nValueOut then .error (.crash .runtimeError)
    else getValueOut nValueOut vout

def getP2SHSigOpCount (coins : List Coin) (vin : List CTxIn) : ℕ :=
  (List.zipWith (fun coin txin =>
    if CScript.isPayToScriptHash coin.out.scriptPubKey then
      CScript.getSigOpCountP2SH coin.out.scriptPubKey txin.scriptSig
    else 0) coins vin).sum

def countWitnessSigOpsOf (coins : List Coin) (vin : List CTxIn) : ℕ :=
  (List.zipWith (fun coin txin =>
    CScript.countWitnessSigOps txin.scriptSig coin.out.scriptPubKey txin.scriptWitness) coins vin).sum

section Loop

variable {sha256 : Bytes → Uint256}

/-- The asserted relation of the flags is that of `CountWitnessSigOps`. -/
def getTransactionSigOpCost (flags : ScriptFlags) (view : CCoinsViewCache) (tx : CTransaction sha256) :
    Except Failure (CCoinsViewCache × ℕ) := do
  let nSigOps := getLegacySigOpCount tx.toCMutableTransaction * WITNESS_SCALE_FACTOR
  if tx.isCoinBase then return (view, nSigOps)
  let (view, coins) := view.accessCoins tx.vin
  assertThat (coins.all (fun coin => !coin.isSpent))
  assertThat (tx.vin.isEmpty || !flags.witness || flags.p2sh)
  return (view, nSigOps +
    (if flags.p2sh then getP2SHSigOpCount coins tx.vin * WITNESS_SCALE_FACTOR else 0) +
    (if flags.witness then countWitnessSigOpsOf coins tx.vin else 0))

/-- The loop of `CheckTxInputs`, with the sum so far. -/
def checkInputCoins (nSpendHeight : ℕ) (nValueIn : CAmount) : List Coin → Except Failure CAmount
  | [] => .ok nValueIn
  | coin :: coins => do
    assertThat (!coin.isSpent)
    failIf (coin.fCoinBase && (nSpendHeight : ℤ) - coin.nHeight < COINBASE_MATURITY)
      0 "bad-txns-premature-spend-of-coinbase" false
    let nValueIn := nValueIn + coin.out.nValue
    failIf (!moneyRange coin.out.nValue || !moneyRange nValueIn)
      100 "bad-txns-inputvalues-outofrange" false
    checkInputCoins nSpendHeight nValueIn coins

/-- `Consensus::CheckTxInputs`. -/
def checkTxInputs (view : CCoinsViewCache) (tx : CTransaction sha256) (nSpendHeight : ℕ) :
    Except Failure CCoinsViewCache := do
  let (view, fHave) := view.haveInputs tx.vin
  failIf (!fHave) 0 "" false
  let (view, coins) := view.accessCoins tx.vin
  let nValueIn ← checkInputCoins nSpendHeight 0 coins
  let nValueOut ← getValueOut 0 tx.vout
  failIf (nValueIn < nValueOut) 100 "bad-txns-in-belowout" false
  let nTxFee := nValueIn - nValueOut
  failIf (nTxFee < 0) 100 "bad-txns-fee-negative" false
  failIf (!moneyRange (0 + nTxFee)) 100 "bad-txns-fee-outofrange" false
  return view

variable (ctx : ConnectContext sha256)

/-- `HaveInputs` and `SequenceLocks`. -/
def checkLocks (view : CCoinsViewCache) (tx : CTransaction sha256) : Except Failure CCoinsViewCache := do
  let (view, fHave) := view.haveInputs tx.vin
  failIf (!fHave) 100 "bad-txns-inputs-missingorspent" false
  let (view, coins) := view.accessCoins tx.vin
  failIf (!ctx.sequenceLocks tx (coins.map (·.nHeight))) 100 "bad-txns-nonfinal" false
  return view

/-- The fee and `CheckInputs`. -/
def checkFee (view : CCoinsViewCache) (tx : CTransaction sha256) (nFees : CAmount) :
    Except Failure (CCoinsViewCache × CAmount) := do
  let (view, nValueIn) := view.getValueIn tx.vin
  let nValueOut ← getValueOut 0 tx.vout
  let nFees := nFees + (nValueIn - nValueOut)
  let view ← checkTxInputs view tx ctx.nHeight
  let (view, coins) := view.accessCoins tx.vin
  match ctx.checkScripts tx coins with
  | some r => throw (.reject r)
  | none => return (view, nFees)

/-- The checks of one iteration, up to `UpdateCoins`. -/
def checkConnect (st : ConnectState) (tx : CTransaction sha256) : Except Failure ConnectState := do
  let view ← (if tx.isCoinBase then .ok st.view else checkLocks ctx st.view tx)
  let (view, nSigOps) ← getTransactionSigOpCost ctx.flags view tx
  let nSigOpsCost := st.nSigOpsCost + nSigOps
  failIf (MAX_BLOCK_SIGOPS_COST < nSigOpsCost) 100 "bad-blk-sigops" false
  let (view, nFees) ←
    (if tx.isCoinBase then .ok (view, st.nFees) else checkFee ctx view tx st.nFees)
  return { st with view := view, nFees := nFees, nSigOpsCost := nSigOpsCost }

def connectTransaction (st : ConnectState) (tx : CTransaction sha256) : Except Failure ConnectState := do
  let st ← checkConnect ctx st tx
  let (txundo, view) ← updateCoins st.view tx ctx.nHeight
  return { st with view := view, vtxundo := st.vtxundo ++ [txundo] }

def getBlockSubsidy (params : ConsensusParams) (nHeight : ℕ) : CAmount :=
  let halvings := nHeight / params.nSubsidyHalvingInterval
  if 64 ≤ halvings then 0 else Int64.ofNat (5000000000 >>> halvings)

def connectTransactions (st : ConnectState) (vtx : List (CTransaction sha256)) :
    Except Failure ConnectState := vtx.foldlM (connectTransaction ctx) st

/-- `ConnectBlock` from the loop on, with `bad-cb-amount`, from the cache `view`. What it does before, which is
`CheckBlock`, the check of `hashUChainVersion` and BIP30, is not part of it. -/
def connectBlock (params : ConsensusParams) (view : CCoinsViewCache) (block : CBlock sha256) :
    Except Failure ConnectState := do
  let st ← connectTransactions ctx ⟨view, 0, 0, []⟩ block.vtx
  let blockReward := st.nFees + getBlockSubsidy params ctx.nHeight
  let coinbaseOut ← getValueOut 0 ((block.vtx.head?.map (·.vout)).getD [])
  failIf (blockReward < coinbaseOut) 100 "bad-cb-amount" false
  return st

end Loop

/-!
## Amounts

Every partial sum is checked with `MoneyRange` before the next amount is added.
-/

def FitsInt64 (x : ℤ) : Prop := -2 ^ 63 ≤ x ∧ x < 2 ^ 63

def runningSums (acc : CAmount) : List CAmount → List ℤ
  | [] => []
  | v :: vs => (acc.toInt + v.toInt) :: runningSums (acc + v) vs

/-- Every amount and every partial sum passes `MoneyRange`. -/
def SumsInRange (acc : CAmount) : List CAmount → Prop
  | [] => True
  | v :: vs => moneyRange v = true ∧ moneyRange (acc + v) = true ∧ SumsInRange (acc + v) vs

lemma moneyRange_iff {v : CAmount} :
    moneyRange v = true ↔ 0 ≤ v.toInt ∧ v.toInt ≤ 2100000000000000 := by
  have h₀ : (0 : CAmount).toInt = 0 := by decide
  have h₁ : MAX_MONEY.toInt = 2100000000000000 := by decide
  simp only [moneyRange, and_eq_true, decide_eq_true_eq, le_iff_toInt_le, h₀, h₁]

lemma toInt_add_of_fits {a b : CAmount} (h : FitsInt64 (a.toInt + b.toInt)) :
    (a + b).toInt = a.toInt + b.toInt := by
  rw [toInt_add]
  have := h.1
  have := h.2
  apply Int.bmod_eq_of_le <;> omega

lemma toInt_sub_of_fits {a b : CAmount} (h : FitsInt64 (a.toInt - b.toInt)) :
    (a - b).toInt = a.toInt - b.toInt := by
  rw [toInt_sub]
  have := h.1
  have := h.2
  apply Int.bmod_eq_of_le <;> omega

section Sums

variable {acc : CAmount} {vs : List CAmount}

lemma fits_of_moneyRange {a b : CAmount} (ha : moneyRange a = true) (hb : moneyRange b = true) :
    FitsInt64 (a.toInt + b.toInt) := by
  rw [moneyRange_iff] at ha hb
  constructor <;> omega

lemma SumsInRange.toInt_foldl (hacc : moneyRange acc = true) (h : SumsInRange acc vs) :
    (vs.foldl (· + ·) acc).toInt = acc.toInt + (vs.map (·.toInt)).sum ∧
      moneyRange (vs.foldl (· + ·) acc) = true := by
  induction vs generalizing acc with
  | nil => exact ⟨by simp, hacc⟩
  | cons v vs ih =>
    obtain ⟨hv, hsum, hrest⟩ := h
    have hadd := toInt_add_of_fits (fits_of_moneyRange hacc hv)
    obtain ⟨heq, hrange⟩ := ih hsum hrest
    refine ⟨?_, hrange⟩
    rw [foldl_cons, heq, hadd]
    simp
    ring

lemma SumsInRange.fits (hacc : moneyRange acc = true) (h : SumsInRange acc vs) :
    ∀ x ∈ runningSums acc vs, FitsInt64 x := by
  induction vs generalizing acc with
  | nil => simp [runningSums]
  | cons v vs ih =>
    obtain ⟨hv, hsum, hrest⟩ := h
    intro x hx
    rcases mem_cons.mp hx with rfl | hx
    · exact fits_of_moneyRange hacc hv
    · exact ih hsum hrest x hx

lemma SumsInRange.mem (h : SumsInRange acc vs) : ∀ v ∈ vs, moneyRange v = true := by
  induction vs generalizing acc with
  | nil => simp
  | cons v vs ih =>
    intro w hw
    rcases mem_cons.mp hw with rfl | hw
    · exact h.1
    · exact ih h.2.2 w hw

end Sums

lemma getValueOut_eq_ok_iff {acc v : CAmount} {vout : List CTxOut} :
    getValueOut acc vout = .ok v ↔
      SumsInRange acc (vout.map (·.nValue)) ∧ (vout.map (·.nValue)).foldl (· + ·) acc = v := by
  induction vout generalizing acc with
  | nil => simp [getValueOut, SumsInRange]
  | cons txout vout ih =>
    unfold getValueOut
    by_cases hv : moneyRange txout.nValue = true
    · by_cases hs : moneyRange (acc + txout.nValue) = true
      · simp [hv, hs, ih, SumsInRange]
      · simp [hv, hs, SumsInRange]
    · simp [hv, SumsInRange]

lemma failIf_eq_ok_iff {c : Bool} {n : ℕ} {r : String} {k : Bool} {u : Unit} :
    failIf c n r k = .ok u ↔ c = false := by
  unfold failIf
  cases c <;> simp

lemma rejectIf_eq_ok_iff {c : Bool} {n : ℕ} {r : String} {k : Bool} {u : Unit} :
    rejectIf c n r k = .ok u ↔ c = false := by
  unfold rejectIf reject
  cases c <;> simp

lemma checkInputCoins_eq_ok {nSpendHeight : ℕ} {acc v : CAmount} {coins : List Coin}
    (h : checkInputCoins nSpendHeight acc coins = .ok v) :
    SumsInRange acc (coins.map (·.out.nValue)) ∧
      (coins.map (·.out.nValue)).foldl (· + ·) acc = v := by
  induction coins generalizing acc with
  | nil => simpa [checkInputCoins, SumsInRange] using h
  | cons coin coins ih =>
    simp only [checkInputCoins, bind_eq_ok_iff, failIf_eq_ok_iff, or_eq_false_iff,
      not_eq_false'] at h
    obtain ⟨-, -, -, -, -, ⟨hv, hs⟩, h⟩ := h
    obtain ⟨hsums, hfold⟩ := ih h
    exact ⟨⟨hv, hs, hsums⟩, hfold⟩

lemma checkOutputs_eq_ok {acc : CAmount} {vout : List CTxOut} {u : Unit}
    (h : checkOutputs acc vout = .ok u) : SumsInRange acc (vout.map (·.nValue)) := by
  induction vout generalizing acc with
  | nil => trivial
  | cons txout vout ih =>
    simp only [checkOutputs, bind_eq_ok_iff, rejectIf_eq_ok_iff, decide_eq_false_iff_not,
      not_eq_false'] at h
    obtain ⟨-, hneg, -, hlarge, -, hs, h⟩ := h
    refine ⟨?_, hs, ih h⟩
    simp only [moneyRange, and_eq_true, decide_eq_true_eq]
    exact ⟨Int64.not_lt.mp hneg, Int64.not_lt.mp hlarge⟩

end MutableBitcoin

/-!
## Checked arithmetic on amounts

Sums, differences and products of `int64_t` amounts whose overflow is undefined.
-/

namespace MutableBitcoin
open Bool List Int64

instance instDecidableFitsInt64 (x : ℤ) : Decidable (FitsInt64 x) :=
  inferInstanceAs (Decidable (_ ∧ _))

def CENT : CAmount := 1000000

/-- Signed overflow. -/
inductive AmountFailure
  | signedOverflow
deriving DecidableEq

def checkedAmount (x : ℤ) : Except AmountFailure CAmount :=
  if FitsInt64 x then .ok (Int64.ofInt x) else .error .signedOverflow

def addAmount (a b : CAmount) : Except AmountFailure CAmount := checkedAmount (a.toInt + b.toInt)

def subAmount (a b : CAmount) : Except AmountFailure CAmount := checkedAmount (a.toInt - b.toInt)

lemma toInt_ofInt_of_fits {x : ℤ} (h : FitsInt64 x) : (Int64.ofInt x).toInt = x :=
  toInt_ofInt_of_le h.1 h.2

lemma fitsInt64_toInt (a : CAmount) : FitsInt64 a.toInt := ⟨a.le_toInt, a.toInt_lt⟩

lemma checkedAmount_of_fits {x : ℤ} (h : FitsInt64 x) :
    ∃ a, checkedAmount x = .ok a ∧ a.toInt = x :=
  ⟨Int64.ofInt x, if_pos h, toInt_ofInt_of_fits h⟩

end MutableBitcoin
