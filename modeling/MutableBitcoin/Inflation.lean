import MutableBitcoin.Supply

/-!
# Inflation

`CheckBlock` does not look for repeated inputs. What a transaction counts in excess is the only
source of new value besides the subsidy.
-/

namespace MutableBitcoin
open Lib List

section Accounting

variable {sha256 : Bytes → Uint256} (nHeight : ℕ) (σ : Ledger COutPoint Coin)

def burned : List CTxOut → ℤ
  | [] => 0
  | txout :: vout =>
    (if CScript.isUnspendable txout.scriptPubKey then txout.nValue.toInt else 0) + burned vout

def replaced (txid : Uint256) : Ledger COutPoint Coin → ℕ → List CTxOut → ℤ
  | _, _, [] => 0
  | σ, i, txout :: vout =>
    if CScript.isUnspendable txout.scriptPubKey then replaced txid σ (i + 1) vout
    else σ.worth Coin.value ⟨txid, UInt32.ofNat i⟩ +
      replaced txid (place true σ ⟨txid, UInt32.ofNat i⟩ ⟨txout, true, nHeight⟩) (i + 1) vout

def excess (tx : CTransaction sha256) : ℤ :=
  σ.counted Coin.value (tx.vin.map (·.prevout)) - σ.removed Coin.value (tx.vin.map (·.prevout))

def accumulate (f : Ledger COutPoint Coin → CTransaction sha256 → ℤ) :
    Ledger COutPoint Coin → List (CTransaction sha256) → ℤ
  | _, [] => 0
  | σ, tx :: txs => f σ tx + accumulate f (spend nHeight σ tx) txs

def spendAll (txs : List (CTransaction sha256)) : Ledger COutPoint Coin := txs.foldl (spend nHeight) σ

lemma held_create_false (txid : Uint256) (i : ℕ) (vout : List CTxOut) :
    (create txid false nHeight σ i vout).held Coin.value =
      σ.held Coin.value + valueOut vout - burned vout := by
  induction vout generalizing σ i with
  | nil => simp [create, valueOut, burned]
  | cons txout vout ih =>
    unfold create burned
    cases hu : CScript.isUnspendable txout.scriptPubKey with
    | true =>
      simp only [if_true, ih, valueOut, map_cons, sum_cons]
      ring
    | false =>
      simp only [Bool.false_eq_true, if_false, ih, place, Ledger.held_push, valueOut, map_cons,
        sum_cons, Coin.value]
      ring

lemma held_create_true (txid : Uint256) (i : ℕ) (vout : List CTxOut) :
    (create txid true nHeight σ i vout).held Coin.value =
      σ.held Coin.value + valueOut vout - burned vout - replaced nHeight txid σ i vout := by
  induction vout generalizing σ i with
  | nil => simp [create, valueOut, burned, replaced]
  | cons txout vout ih =>
    unfold create burned replaced
    cases hu : CScript.isUnspendable txout.scriptPubKey with
    | true =>
      simp only [if_true, ih, valueOut, map_cons, sum_cons]
      ring
    | false =>
      simp only [Bool.false_eq_true, if_false, if_true, ih, place, Ledger.held_put, valueOut,
        map_cons, sum_cons, Coin.value]
      ring

lemma held_spend (tx : CTransaction sha256) :
    (spend nHeight σ tx).held Coin.value =
      σ.held Coin.value + excess σ tx - txFee σ tx - burned tx.vout := by
  unfold spend excess txFee
  rw [held_create_false, Ledger.held_popAll]
  ring

lemma held_spendAll (txs : List (CTransaction sha256)) :
    (spendAll nHeight σ txs).held Coin.value =
      σ.held Coin.value + accumulate nHeight excess σ txs - accumulate nHeight txFee σ txs -
        (txs.map (fun tx => burned tx.vout)).sum := by
  induction txs generalizing σ with
  | nil => simp [spendAll, accumulate]
  | cons tx txs ih =>
    have h := ih (spend nHeight σ tx)
    rw [held_spend] at h
    simp only [accumulate, map_cons, sum_cons]
    refine h.trans ?_
    ring

end Accounting

section Sums

variable {sha256 : Bytes → Uint256} (ctx : ConnectContext sha256)

/-- The exact results of the `int64_t` operations for one transaction: `GetValueOut` and, if it is
not a coinbase, `GetValueIn`, the fee and the fees so far. -/
def stepSums (st : ConnectState) (tx : CTransaction sha256) : List ℤ :=
  runningSums 0 (tx.vout.map (·.nValue)) ++
    if tx.isCoinBase then []
    else
      runningSums 0 ((st.view.spentCoins tx.vin).map (·.out.nValue)) ++
        [(st.view.valueIn tx.vin).toInt - (nValueOut tx.vout).toInt,
          st.nFees.toInt + (st.view.valueIn tx.vin - nValueOut tx.vout).toInt]

def loopSums : ConnectState → List (CTransaction sha256) → List ℤ
  | _, [] => []
  | st, tx :: vtx => stepSums st tx ++
    match connectTransaction ctx st tx with
    | .ok st' => loopSums st' vtx
    | .error _ => []

/-- With the sum of fees and subsidy, for a block that is accepted with the state `st`. -/
def blockSums (params : ConsensusParams) (view : CCoinsViewCache) (block : CBlock sha256)
    (st : ConnectState) : List ℤ :=
  loopSums ctx ⟨view, 0, 0, []⟩ block.vtx ++
    [st.nFees.toInt + (getBlockSubsidy params ctx.nHeight).toInt]

end Sums

section Run

variable {sha256 : Bytes → Uint256} {ctx : ConnectContext sha256} {st st' : ConnectState}
  {tx : CTransaction sha256}

/-- The fees of at most `k` transactions. -/
def FeesOf (k : ℕ) (nFees : CAmount) : Prop :=
  0 ≤ nFees.toInt ∧ nFees.toInt ≤ k * 2100000000000000

lemma Accepted.toInt_nFees (h : Accepted ctx st tx st') {k : ℕ} (hk : k < 3906)
    (hfees : FeesOf k st.nFees) :
    st'.nFees.toInt = st.nFees.toInt + txFee st.view.ledger tx ∧ FeesOf (k + 1) st'.nFees ∧
      FitsInt64 (st.nFees.toInt + txFee st.view.ledger tx) := by
  obtain ⟨hlow, hhigh⟩ := hfees
  obtain ⟨hfee₀, hfee₁⟩ := h.fee_range
  have hfits : FitsInt64 (st.nFees.toInt + txFee st.view.ledger tx) := by
    constructor <;> omega
  have heq : st'.nFees.toInt = st.nFees.toInt + txFee st.view.ledger tx := by
    rw [h.nFees, toInt_add_of_fits, h.fee]
    rw [h.fee]
    exact hfits
  refine ⟨heq, ⟨?_, ?_⟩, hfits⟩
  · omega
  · push_cast
    omega

lemma Accepted.fits (h : Accepted ctx st tx st') (hcb : tx.isCoinBase = false)
    (hchk : checkTransaction tx.toCMutableTransaction false = .ok ())
    {k : ℕ} (hk : k < 3906) (hfees : FeesOf k st.nFees) : ∀ x ∈ stepSums st tx, FitsInt64 x := by
  have hsumsOut := (checkTransaction_ok hchk).2.2
  intro x hx
  unfold stepSums at hx
  simp only [hcb, Bool.false_eq_true, if_false, mem_append, mem_cons,
    not_mem_nil, or_false] at hx
  rcases hx with hx | hx | rfl | rfl
  · exact hsumsOut.fits (by decide) x hx
  · exact h.sumsIn.fits (by decide) x hx
  · have hin := (h.sumsIn.toInt_foldl (by decide)).2
    have hout := (hsumsOut.toInt_foldl (by decide)).2
    rw [moneyRange_iff] at hin hout
    unfold CCoinsViewCache.valueIn nValueOut
    constructor <;> omega
  · rw [h.fee]
    exact (h.toInt_nFees hk hfees).2.2

lemma loopSums_of_ok {vtx : List (CTransaction sha256)} (h : connectTransaction ctx st tx = .ok st') :
    loopSums ctx st (tx :: vtx) = stepSums st tx ++ loopSums ctx st' vtx := by
  rw [loopSums, h]

lemma connectTransactions_ok {txs : List (CTransaction sha256)} (hb : st.view.Built)
    (hcb : ∀ tx ∈ txs, tx.isCoinBase = false)
    (hchk : ∀ tx ∈ txs, checkTransaction tx.toCMutableTransaction false = .ok ())
    {k : ℕ} (hfees : FeesOf k st.nFees) (hlen : k + txs.length ≤ 3906)
    (h : connectTransactions ctx st txs = .ok st') :
    st'.view.Built ∧ st'.view.ledger = spendAll ctx.nHeight st.view.ledger txs ∧
      st'.nFees.toInt = st.nFees.toInt + accumulate ctx.nHeight txFee st.view.ledger txs ∧
      FeesOf (k + txs.length) st'.nFees ∧ ∀ x ∈ loopSums ctx st txs, FitsInt64 x := by
  induction txs generalizing st k with
  | nil =>
    obtain rfl := Except.ok.inj h
    exact ⟨hb, rfl, by simp [accumulate], hfees, by simp [loopSums]⟩
  | cons tx txs ih =>
    unfold connectTransactions at h
    rw [foldlM_cons, bind_eq_ok_iff] at h
    obtain ⟨st₁, hstep, hrest⟩ := h
    rw [length_cons] at hlen
    have hacc := accepted_of_connectTransaction hb (hcb tx (by simp)) (hchk tx (by simp)) hstep
    have hk : k < 3906 := by omega
    obtain ⟨heq, hfees₁, -⟩ := hacc.toInt_nFees hk hfees
    obtain ⟨hb', hl', hn', hf', hs'⟩ := ih hacc.built (fun t ht => hcb t (by simp [ht]))
      (fun t ht => hchk t (by simp [ht])) hfees₁ (by omega) hrest
    refine ⟨hb', ?_, ?_, ?_, ?_⟩
    · rw [hl', hacc.ledger]
      rfl
    · rw [hn', heq, hacc.ledger, accumulate]
      ring
    · rw [length_cons, show k + (txs.length + 1) = k + 1 + txs.length by omega]
      exact hf'
    · intro x hx
      rw [loopSums_of_ok hstep, mem_append] at hx
      rcases hx with hx | hx
      · exact hacc.fits (hcb tx (by simp)) (hchk tx (by simp)) hk hfees x hx
      · exact hs' x hx

lemma connectTransaction_coinbase {view : CCoinsViewCache} (hb : view.Built) (hfresh : view.NoFresh)
    (hcb : tx.isCoinBase = true) (hchk : checkTransaction tx.toCMutableTransaction false = .ok ())
    (h : connectTransaction ctx ⟨view, 0, 0, []⟩ tx = .ok st') :
    st'.view.Built ∧ st'.view.ledger = create tx.hash true ctx.nHeight view.ledger 0 tx.vout ∧
      st'.nFees = 0 := by
  have hsums := (checkTransaction_ok hchk).2.2
  simp only [connectTransaction, checkConnect_coinbase hcb, bind_assoc_ok, bind_eq_ok_iff, ok_bind,
    updateCoins, hcb, if_true] at h
  obtain ⟨-, -, view₁, hadd, undo, hundo, hret⟩ := h
  obtain rfl := Except.ok.inj hundo
  obtain rfl := Except.ok.inj hret
  obtain ⟨hb', hl'⟩ := hb.addCoins (fun txout hmem => hsums.mem _ (mem_map_of_mem hmem))
    (fun _ => hfresh) hadd
  exact ⟨hb', hl', rfl⟩

end Run

section Block

variable {sha256 : Bytes → Uint256}

lemma length_vtx_le {block : CBlock sha256} (h : Checked block) : block.vtx.length ≤ 3906 := by
  have htx : ∀ tx : CTransaction sha256,
      256 ≤ (tx.toCMutableTransaction.serialize strippedStream).length := by
    intro tx
    unfold CMutableTransaction.serialize
    simp only [length_append, BaseBlob.length_data]
    omega
  have hvtx : block.vtx.length * 256 ≤
      (block.vtx.flatMap (fun tx => tx.toCMutableTransaction.serialize strippedStream)).length := by
    induction block.vtx with
    | nil => simp
    | cons tx vtx ih =>
      simp only [flatMap_cons, length_append, length_cons]
      rw [Nat.add_mul, one_mul, Nat.add_comm]
      exact Nat.add_le_add (htx tx) ih
  have hsize := h.size
  simp only [CBlock.getSerializeSize, CBlock.serialize, serializeVector, length_append,
    WITNESS_SCALE_FACTOR, MAX_BLOCK_WEIGHT] at hsize
  omega

lemma toInt_getBlockSubsidy (params : ConsensusParams) (nHeight : ℕ) :
    0 ≤ (getBlockSubsidy params nHeight).toInt ∧
      (getBlockSubsidy params nHeight).toInt ≤ 5000000000 := by
  unfold getBlockSubsidy
  simp only
  split_ifs with h
  · exact ⟨by decide, by decide⟩
  · have hle : 5000000000 >>> (nHeight / params.nSubsidyHalvingInterval) ≤ 5000000000 := by
      rw [Nat.shiftRight_eq_div_pow]
      exact Nat.div_le_self _ _
    rw [Int64.toInt_ofNat_of_lt (by omega)]
    exact ⟨Int.natCast_nonneg _, by exact_mod_cast hle⟩

/-- The UTXO map before the block, under an empty cache as `ConnectTip` makes it. -/
def coinsTip (base : COutPoint → Option Coin) : CCoinsViewCache := ⟨base, fun _ => none⟩

lemma held_coinsTip (base : COutPoint → Option Coin) :
    (coinsTip base).ledger.held Coin.value = (coinsTip base).total := by
  unfold CCoinsViewCache.total
  rw [Ledger.held_eq]
  have hhidden : Ledger.hidden Coin.value (coinsTip base).ledger = 0 := by
    apply Finset.sum_eq_zero
    intro o _
    have h : ((coinsTip base).ledger o).tail = [] := by
      cases hb : base o <;> simp [CCoinsViewCache.ledger, coinsTip, hb]
    rw [h]
    rfl
  rw [hhidden, add_zero]

def afterCoinbase (nHeight : ℕ) (base : COutPoint → Option Coin) (cb : CTransaction sha256) :
    Ledger COutPoint Coin :=
  create cb.hash true nHeight (coinsTip base).ledger 0 cb.vout

def recounted (nHeight : ℕ) (base : COutPoint → Option Coin) : List (CTransaction sha256) → ℤ
  | [] => 0
  | cb :: txs => accumulate nHeight excess (afterCoinbase nHeight base cb) txs

/-- The value that a block gives up: what its coinbase leaves of fees and subsidy, outputs that
cannot be spent, coins under the outputs of the coinbase, and coins hidden by an output with the
same outpoint. -/
noncomputable def givenUp (nHeight : ℕ) (nSubsidy : ℤ) (base : COutPoint → Option Coin) :
    List (CTransaction sha256) → ℤ
  | [] => nSubsidy
  | cb :: txs =>
    (accumulate nHeight txFee (afterCoinbase nHeight base cb) txs + nSubsidy - valueOut cb.vout) +
    ((cb :: txs).map (fun tx => burned tx.vout)).sum +
    replaced nHeight cb.hash (coinsTip base).ledger 0 cb.vout +
    (spendAll nHeight (afterCoinbase nHeight base cb) txs).hidden Coin.value

/-- The unspent coins grow by at most the subsidy, and no `int64_t` operation overflows. -/
def NoInflation (ctx : ConnectContext sha256) (params : ConsensusParams)
    (base : COutPoint → Option Coin) (block : CBlock sha256) (st : ConnectState) : Prop :=
  st.view.total ≤ (coinsTip base).total + (getBlockSubsidy params ctx.nHeight).toInt ∧
    ∀ x ∈ blockSums ctx params (coinsTip base) block st, FitsInt64 x

variable {ctx : ConnectContext sha256} {params : ConsensusParams} {base : COutPoint → Option Coin}
  {block : CBlock sha256} {st : ConnectState}

lemma connectBlock_eq_ok (h : connectBlock ctx params (coinsTip base) block = .ok st) :
    connectTransactions ctx ⟨coinsTip base, 0, 0, []⟩ block.vtx = .ok st ∧
      ∃ coinbaseOut, getValueOut 0 ((block.vtx.head?.map (·.vout)).getD []) = .ok coinbaseOut ∧
        coinbaseOut ≤ st.nFees + getBlockSubsidy params ctx.nHeight := by
  simp only [connectBlock, bind_eq_ok_iff, failIf_eq_ok_iff, decide_eq_false_iff_not] at h
  obtain ⟨st₁, hrun, coinbaseOut, hout, -, hle, hret⟩ := h
  obtain rfl := Except.ok.inj hret
  exact ⟨hrun, coinbaseOut, hout, Int64.not_lt.mp hle⟩

/-- A block that passed, transaction by transaction. -/
structure BlockAccepted (ctx : ConnectContext sha256) (params : ConsensusParams)
    (base : COutPoint → Option Coin) (block : CBlock sha256) (st : ConnectState)
    (cb : CTransaction sha256) (txs : List (CTransaction sha256)) : Prop where
  vtx : block.vtx = cb :: txs
  checked : ∀ tx ∈ block.vtx, checkTransaction tx.toCMutableTransaction false = .ok ()
  built : st.view.Built
  ledger : st.view.ledger = spendAll ctx.nHeight (afterCoinbase ctx.nHeight base cb) txs
  nFees : st.nFees.toInt = accumulate ctx.nHeight txFee (afterCoinbase ctx.nHeight base cb) txs
  claimed : valueOut cb.vout ≤ st.nFees.toInt + (getBlockSubsidy params ctx.nHeight).toInt
  fits : ∀ x ∈ blockSums ctx params (coinsTip base) block st, FitsInt64 x

lemma blockAccepted (hbase : ∀ o coin, base o = some coin → coin.InRange) (hchecked : Checked block)
    (h : connectBlock ctx params (coinsTip base) block = .ok st) :
    ∃ cb txs, BlockAccepted ctx params base block st cb txs := by
  obtain ⟨cb, txs, hvtx, hcb, htxs⟩ := hchecked.coinbase
  have hchk := hchecked.transactions
  have hlen := length_vtx_le hchecked
  obtain ⟨hrun, coinbaseOut, hout, hle⟩ := connectBlock_eq_ok h
  have hrun' := hrun
  rw [hvtx] at hrun' hout hlen
  unfold connectTransactions at hrun'
  rw [foldlM_cons, bind_eq_ok_iff] at hrun'
  obtain ⟨st₁, hstep, hrest⟩ := hrun'
  obtain ⟨hb₁, hl₁, hn₁⟩ := connectTransaction_coinbase (built_empty hbase) (by
    intro o entry he
    cases he) hcb (hchk cb (by simp [hvtx])) hstep
  obtain ⟨hb, hl, hn, hfees, hsums⟩ := connectTransactions_ok hb₁ htxs
    (fun tx htx => hchk tx (by simp [hvtx, htx])) (k := 0) (by simp [hn₁, FeesOf])
    (by simpa using Nat.le_of_succ_le hlen) hrest
  have hcbSums := (checkTransaction_ok (hchk cb (by simp [hvtx]))).2.2
  obtain ⟨hlow, hhigh⟩ := hfees
  obtain ⟨hsub₀, hsub₁⟩ := toInt_getBlockSubsidy params ctx.nHeight
  have hreward : FitsInt64 (st.nFees.toInt + (getBlockSubsidy params ctx.nHeight).toInt) := by
    have : ((0 + txs.length : ℕ) : ℤ) ≤ 3905 := by
      rw [length_cons] at hlen
      omega
    constructor <;> omega
  refine ⟨cb, txs, hvtx, hchk, hb, ?_, ?_, ?_, ?_⟩
  · rw [hl, hl₁]
    rfl
  · rw [hn, hn₁, hl₁]
    simp [afterCoinbase, coinsTip]
  · obtain ⟨-, hfold⟩ := getValueOut_eq_ok_iff.mp hout
    rw [← toInt_nValueOut hcbSums, ← toInt_add_of_fits hreward]
    rw [Int64.le_iff_toInt_le, ← hfold] at hle
    exact hle
  · intro x hx
    unfold blockSums at hx
    rw [hvtx, loopSums_of_ok hstep] at hx
    simp only [mem_append, mem_singleton] at hx
    rcases hx with (hx | hx) | rfl
    · simp only [stepSums, hcb, if_true, append_nil] at hx
      exact hcbSums.fits (by decide) x hx
    · exact hsums x hx
    · exact hreward

lemma BlockAccepted.total_eq {cb : CTransaction sha256} {txs : List (CTransaction sha256)}
    (h : BlockAccepted ctx params base block st cb txs) :
    st.view.total = (coinsTip base).total + (getBlockSubsidy params ctx.nHeight).toInt +
      recounted ctx.nHeight base block.vtx -
      givenUp ctx.nHeight (getBlockSubsidy params ctx.nHeight).toInt base block.vtx := by
  have hheld := held_spendAll ctx.nHeight (afterCoinbase ctx.nHeight base cb) txs
  rw [← h.ledger, Ledger.held_eq] at hheld
  have hcb := held_create_true ctx.nHeight (coinsTip base).ledger cb.hash 0 cb.vout
  rw [held_coinsTip] at hcb
  unfold CCoinsViewCache.total
  rw [h.vtx]
  simp only [recounted, givenUp, map_cons, sum_cons, ← h.ledger]
  unfold afterCoinbase at hheld ⊢
  rw [hcb] at hheld
  unfold CCoinsViewCache.total at hheld
  linarith

/-- No coin has a negative value. -/
def NonnegLedger (σ : Ledger COutPoint Coin) : Prop := ∀ o, ∀ coin ∈ σ o, 0 ≤ coin.value

lemma Coin.InRange.value_nonneg {coin : Coin} (h : coin.InRange) : 0 ≤ coin.value :=
  (moneyRange_iff.mp h).1

lemma CCoinsViewCache.Built.nonneg {view : CCoinsViewCache} (h : view.Built) :
    NonnegLedger view.ledger := by
  intro o coin hcoin
  have hbase : coin ∈ (view.base o).toList → 0 ≤ coin.value := by
    intro hmem
    exact (h.base o coin (Option.mem_toList.mp hmem)).value_nonneg
  unfold CCoinsViewCache.ledger at hcoin
  cases hc : view.cacheCoins o with
  | none =>
    rw [hc] at hcoin
    exact hbase hcoin
  | some entry =>
    rw [hc] at hcoin
    simp only at hcoin
    split_ifs at hcoin with hs hf
    · cases hcoin
    · rcases mem_cons.mp hcoin with rfl | hcoin
      · exact ((h.cached o entry hc).1 (by simpa using hs)).value_nonneg
      · exact hbase hcoin
    · obtain rfl := mem_singleton.mp hcoin
      exact ((h.cached o entry hc).1 (by simpa using hs)).value_nonneg

/-- An accepted block creates no value but the subsidy exactly if the value that it counts in
excess is at most the value that it gives up. -/
theorem connectBlock_noInflation_iff (ctx : ConnectContext sha256) (params : ConsensusParams)
    (base : COutPoint → Option Coin) (block block' : CBlock sha256) (fCheckPOW fCheckMerkleRoot : Bool)
    (st : ConnectState) (hbase : ∀ o coin, base o = some coin → coin.InRange)
    (hf : block.fChecked = false)
    (hchk : checkBlock block params fCheckPOW fCheckMerkleRoot = .ok block')
    (h : connectBlock ctx params (coinsTip base) block = .ok st) :
    NoInflation ctx params base block st ↔
      recounted ctx.nHeight base block.vtx ≤
        givenUp ctx.nHeight (getBlockSubsidy params ctx.nHeight).toInt base block.vtx := by
  obtain ⟨cb, txs, hacc⟩ := blockAccepted hbase (checked_of_checkBlock hf hchk) h
  unfold NoInflation
  rw [hacc.total_eq]
  constructor
  · rintro ⟨hle, -⟩
    linarith
  · intro hle
    exact ⟨by linarith, hacc.fits⟩

end Block

section DoubleSpend

def fundingBase : COutPoint → Option Coin := Function.update (fun _ => none) fundingOutpoint (some fundingCoin)

lemma inRange_fundingBase : ∀ o coin, fundingBase o = some coin → coin.InRange := by
  intro o coin h
  by_cases ho : o = fundingOutpoint
  · subst ho
    simp only [fundingBase, Function.update_self, Option.some.injEq] at h
    subst h
    unfold Coin.InRange
    decide
  · simp [fundingBase, ho] at h

lemma total_fundingBase : (coinsTip fundingBase).total = 5000000000 := by
  unfold CCoinsViewCache.total Ledger.visible
  rw [Finset.sum_eq_single fundingOutpoint]
  · decide
  · intro o _ ho
    simp [Ledger.top, CCoinsViewCache.ledger, coinsTip, fundingBase, ho]
  · intro h
    exact absurd (Finset.mem_univ _) h

lemma connectBlock_fundingBase :
    ∃ st, connectBlock (lenientContext 1) regtest (coinsTip fundingBase) doubleSpendBlock = .ok st := by
  have h : (connectBlock (lenientContext 1) regtest (coinsTip fundingBase)
      doubleSpendBlock).isOk = true := by decide +kernel
  cases hc : connectBlock (lenientContext 1) regtest (coinsTip fundingBase) doubleSpendBlock with
  | ok st => exact ⟨st, rfl⟩
  | error e => simp [hc, Except.isOk, Except.toBool] at h

lemma visible_ge {σ : Ledger COutPoint Coin} (hσ : NonnegLedger σ) {o o' : COutPoint} (h : o ≠ o') :
    σ.top Coin.value o + σ.top Coin.value o' ≤ σ.visible Coin.value := by
  rw [← Finset.sum_pair h]
  apply Finset.sum_le_sum_of_subset_of_nonneg (Finset.subset_univ _)
  intro k _ _
  unfold Ledger.top
  cases hk : σ k with
  | nil => simp
  | cons coin _ => simpa using hσ k coin (by simp [hk])

theorem connectBlock_noInflation_iff_doubleSpendBlock :
    ∃ block' st, checkBlock doubleSpendBlock regtest true true = .ok block' ∧
      connectBlock (lenientContext 1) regtest (coinsTip fundingBase) doubleSpendBlock = .ok st ∧
      (NoInflation (lenientContext 1) regtest fundingBase doubleSpendBlock st ↔
        recounted 1 fundingBase doubleSpendBlock.vtx ≤
          givenUp 1 (getBlockSubsidy regtest 1).toInt fundingBase doubleSpendBlock.vtx) := by
  obtain ⟨block', hchk⟩ := checkBlock_doubleSpendBlock
  obtain ⟨st, h⟩ := connectBlock_fundingBase
  exact ⟨block', st, hchk, h, connectBlock_noInflation_iff (lenientContext 1) regtest fundingBase
    doubleSpendBlock block' true true st inRange_fundingBase rfl hchk h⟩

/-- From 50 COIN a block with a subsidy of 50 COIN makes 150 COIN. -/
theorem connectBlock_doubleSpendBlock_inflates :
    (∀ o coin, fundingBase o = some coin → coin.InRange) ∧
    ∃ block' st, checkBlock doubleSpendBlock regtest true true = .ok block' ∧
      connectBlock (lenientContext 1) regtest (coinsTip fundingBase) doubleSpendBlock = .ok st ∧
      (coinsTip fundingBase).total ≤ MAX_MONEY.toInt ∧
      (coinsTip fundingBase).total + (getBlockSubsidy regtest 1).toInt < st.view.total := by
  obtain ⟨block', hchk⟩ := checkBlock_doubleSpendBlock
  obtain ⟨st, h⟩ := connectBlock_fundingBase
  refine ⟨inRange_fundingBase, block', st, hchk, h, ?_, ?_⟩
  · rw [total_fundingBase]
    decide
  · obtain ⟨cb, txs, hacc⟩ := blockAccepted inRange_fundingBase
      (checked_of_checkBlock rfl hchk) h
    obtain ⟨rfl, rfl⟩ := List.cons.inj hacc.vtx
    have hge := visible_ge hacc.built.nonneg
      (show (⟨coinbaseTx.hash, 0⟩ : COutPoint) ≠ ⟨doubleSpendTx.hash, 0⟩ by decide)
    have hcb : st.view.ledger.top Coin.value ⟨coinbaseTx.hash, 0⟩ = 5000000000 := by
      rw [hacc.ledger]
      decide +kernel
    have htx : st.view.ledger.top Coin.value ⟨doubleSpendTx.hash, 0⟩ = 10000000000 := by
      rw [hacc.ledger]
      decide +kernel
    have hsub : (getBlockSubsidy regtest 1).toInt = 5000000000 := by decide
    rw [hcb, htx] at hge
    rw [total_fundingBase, hsub]
    exact lt_of_lt_of_le (by norm_num) hge

end DoubleSpend

end MutableBitcoin
