import MutableBitcoin.Inflation

/-!
# The supply along a chain

The unspent coins of a chain are worth no more than its subsidies, and these never reach
`MAX_MONEY`.
-/

namespace MutableBitcoin
open Lib Finset Nat

variable {sha256 : Bytes → Uint256} {params : ConsensusParams}

section GivenUp

variable {ctx : ConnectContext sha256} {base : COutPoint → Option Coin} {block : CBlock sha256} {st : ConnectState}

lemma excess_eq_zero (σ : Ledger COutPoint Coin) {tx : CTransaction sha256} (h : (tx.vin.map (·.prevout)).Nodup) :
    excess σ tx = 0 := by
  unfold excess
  rw [Ledger.removed_eq_counted σ h]
  ring

lemma accumulate_excess_eq_zero (nHeight : ℕ) (σ : Ledger COutPoint Coin) {txs : List (CTransaction sha256)}
    (h : ∀ tx ∈ txs, (tx.vin.map (·.prevout)).Nodup) : accumulate nHeight excess σ txs = 0 := by
  induction txs generalizing σ with
  | nil => rfl
  | cons tx txs ih =>
    rw [accumulate, excess_eq_zero σ (h tx (by simp)), ih _ (fun t ht => h t (by simp [ht]))]
    rfl

lemma burned_nonneg {vout : List CTxOut} (h : ∀ txout ∈ vout, moneyRange txout.nValue = true) :
    0 ≤ burned vout := by
  induction vout with
  | nil => simp [burned]
  | cons txout vout ih =>
    unfold burned
    have h₀ := (moneyRange_iff.mp (h txout (by simp))).1
    have h₁ := ih (fun t ht => h t (by simp [ht]))
    split_ifs <;> omega

lemma replaced_nonneg {σ : Ledger COutPoint Coin} (hσ : NonnegLedger σ) (nHeight : ℕ)
    (txid : Uint256) {vout : List CTxOut} (h : ∀ txout ∈ vout, moneyRange txout.nValue = true)
    (i : ℕ) : 0 ≤ replaced nHeight txid σ i vout := by
  induction vout generalizing σ i with
  | nil => simp [replaced]
  | cons txout vout ih =>
    have h' : ∀ t ∈ vout, moneyRange t.nValue = true := fun t ht => h t (by simp [ht])
    unfold replaced
    split_ifs with hu
    · exact ih hσ h' (i + 1)
    · have hworth : 0 ≤ σ.worth Coin.value ⟨txid, UInt32.ofNat i⟩ := by
        apply List.sum_nonneg
        intro x hx
        obtain ⟨coin, hcoin, rfl⟩ := List.mem_map.mp hx
        exact hσ _ coin hcoin
      refine add_nonneg hworth (ih ?_ h' (i + 1))
      intro o coin hcoin
      by_cases ho : o = ⟨txid, UInt32.ofNat i⟩
      · subst ho
        simp only [place, if_true, Ledger.put, Function.update_self, List.mem_singleton] at hcoin
        subst hcoin
        exact (moneyRange_iff.mp (h txout (by simp))).1
      · simp only [place, if_true, Ledger.put, Function.update_of_ne ho] at hcoin
        exact hσ o coin hcoin

lemma BlockAccepted.givenUp_nonneg {cb : CTransaction sha256} {txs : List (CTransaction sha256)}
    (hbase : ∀ o coin, base o = some coin → coin.InRange)
    (h : BlockAccepted ctx params base block st cb txs) :
    0 ≤ givenUp ctx.nHeight (getBlockSubsidy params ctx.nHeight).toInt base block.vtx := by
  have hrange : ∀ tx ∈ block.vtx, ∀ txout ∈ tx.vout, moneyRange txout.nValue = true := by
    intro tx htx txout hmem
    exact (checkTransaction_ok (h.checked tx htx)).2.2.mem _ (List.mem_map_of_mem hmem)
  rw [h.vtx] at hrange ⊢
  unfold givenUp
  have hclaimed := h.claimed
  rw [h.nFees] at hclaimed
  have hburned : 0 ≤ ((cb :: txs).map (fun tx => burned tx.vout)).sum := by
    apply List.sum_nonneg
    intro x hx
    obtain ⟨tx, htx, rfl⟩ := List.mem_map.mp hx
    exact burned_nonneg (hrange tx htx)
  have hreplaced := replaced_nonneg (built_empty hbase).nonneg ctx.nHeight cb.hash
    (hrange cb (by simp)) 0
  have hhidden := Ledger.hidden_nonneg st.view.ledger h.built.nonneg
  rw [h.ledger] at hhidden
  unfold coinsTip
  simp only [← h.ledger] at hhidden ⊢
  linarith

lemma connectBlock_noInflation_of_nodup {block' : CBlock sha256} {fCheckPOW fCheckMerkleRoot : Bool}
    (hbase : ∀ o coin, base o = some coin → coin.InRange) (hf : block.fChecked = false)
    (hchk : checkBlock block params fCheckPOW fCheckMerkleRoot = .ok block')
    (h : connectBlock ctx params (coinsTip base) block = .ok st)
    (hnodup : ∀ tx ∈ block.vtx, (tx.vin.map (·.prevout)).Nodup) :
    NoInflation ctx params base block st := by
  obtain ⟨cb, txs, hacc⟩ := blockAccepted hbase (checked_of_checkBlock hf hchk) h
  have hzero : recounted ctx.nHeight base block.vtx = 0 := by
    rw [hacc.vtx] at hnodup ⊢
    exact accumulate_excess_eq_zero _ _ (fun tx htx => hnodup tx (by simp [htx]))
  refine ⟨?_, hacc.fits⟩
  have := hacc.givenUp_nonneg hbase
  rw [hacc.total_eq, hzero]
  linarith

end GivenUp

variable {view : CCoinsViewCache} {base : COutPoint → Option Coin} {nHeight : ℕ}

section Flushed

/-- The coins that a flushed cache leaves in the view below. -/
def CCoinsViewCache.flushed (view : CCoinsViewCache) (o : COutPoint) : Option Coin :=
  match view.cacheCoins o with
  | none => view.base o
  | some entry => if entry.coin.isSpent then none else some entry.coin

lemma flushed_eq_head? (view : CCoinsViewCache) (o : COutPoint) : view.flushed o = (view.ledger o).head? := by
  unfold CCoinsViewCache.flushed CCoinsViewCache.ledger
  cases view.cacheCoins o with
  | none => cases view.base o <;> rfl
  | some entry =>
    dsimp only
    split_ifs <;> rfl

lemma CCoinsViewCache.Built.inRange_flushed (h : view.Built) {o : COutPoint} {coin : Coin}
    (hcoin : view.flushed o = some coin) : coin.InRange := by
  unfold CCoinsViewCache.flushed at hcoin
  cases hentry : view.cacheCoins o with
  | none =>
    rw [hentry] at hcoin
    exact h.base o coin hcoin
  | some entry =>
    rw [hentry] at hcoin
    dsimp only at hcoin
    split_ifs at hcoin with hspent
    obtain rfl := Option.some.inj hcoin
    exact (h.cached o entry hentry).1 (by simpa using hspent)

lemma total_coinsTip_flushed (view : CCoinsViewCache) : (coinsTip view.flushed).total = view.total := by
  unfold CCoinsViewCache.total Ledger.visible
  apply sum_congr rfl
  intro o _
  have hledger : (coinsTip view.flushed).ledger o = (view.flushed o).toList := rfl
  unfold Ledger.top
  rw [hledger, flushed_eq_head?]
  cases (view.ledger o).head? <;> rfl

end Flushed

section Subsidies

/-- The subsidies of the blocks above the genesis block. -/
def subsidies (params : ConsensusParams) (nHeight : ℕ) : ℤ :=
  ∑ i ∈ Finset.range nHeight, (getBlockSubsidy params (i + 1)).toInt

/-- The subsidy after a number of halvings. -/
def eraSubsidy (halvings : ℕ) : ℕ := if 64 ≤ halvings then 0 else 5000000000 >>> halvings

lemma toInt_getBlockSubsidy_eq (params : ConsensusParams) (nHeight : ℕ) :
    (getBlockSubsidy params nHeight).toInt = eraSubsidy (nHeight / params.nSubsidyHalvingInterval) := by
  unfold getBlockSubsidy eraSubsidy
  dsimp only
  split_ifs with h
  · rfl
  · have hle : 5000000000 >>> (nHeight / params.nSubsidyHalvingInterval) ≤ 5000000000 := by
      rw [shiftRight_eq_div_pow]
      exact div_le_self _ _
    exact Int64.toInt_ofNat_of_lt (by omega)

/-- Whole eras of `d` heights each. -/
lemma sum_eras (f : ℕ → ℕ) {d : ℕ} (hd : 0 < d) (eras : ℕ) :
    ∑ i ∈ Finset.range (eras * d), f (i / d) = d * ∑ k ∈ Finset.range eras, f k := by
  induction eras with
  | zero => simp
  | succ eras ih =>
    have hera : ∀ j ∈ Finset.range d, f ((eras * d + j) / d) = f eras := by
      intro j hj
      rw [mul_comm, mul_add_div hd, div_eq_of_lt (mem_range.mp hj), add_zero]
    rw [succ_mul, sum_range_add, ih, sum_congr rfl hera, sum_const, card_range,
      smul_eq_mul, sum_range_succ, mul_add]

lemma sum_eraSubsidy_le {d : ℕ} (hd : 0 < d) (n : ℕ) :
    ∑ i ∈ Finset.range n, eraSubsidy (i / d) ≤ d * 9999999989 := by
  have hsub : Finset.range n ⊆ Finset.range ((64 + n) * d) := by
    apply range_mono
    nlinarith
  have hlate : ∀ k ∈ Finset.range n, eraSubsidy (64 + k) = 0 := fun k _ => if_pos (le_add_right 64 k)
  have hearly : ∑ k ∈ Finset.range 64, eraSubsidy k = 9999999989 := by decide +kernel
  calc ∑ i ∈ Finset.range n, eraSubsidy (i / d)
      ≤ ∑ i ∈ Finset.range ((64 + n) * d), eraSubsidy (i / d) := sum_le_sum_of_subset hsub
    _ = d * ∑ k ∈ Finset.range (64 + n), eraSubsidy k := sum_eras eraSubsidy hd _
    _ = d * 9999999989 := by rw [sum_range_add, sum_eq_zero hlate, hearly, add_zero]

lemma subsidies_le_maxMoney (hpos : 0 < params.nSubsidyHalvingInterval)
    (hle : params.nSubsidyHalvingInterval ≤ 210000) (nHeight : ℕ) : subsidies params nHeight ≤ MAX_MONEY.toInt := by
  have hmax : MAX_MONEY.toInt = 2100000000000000 := by decide
  have hsum := sum_eraSubsidy_le hpos (nHeight + 1)
  rw [sum_range_succ'] at hsum
  have hcast : subsidies params nHeight =
      ((∑ i ∈ Finset.range nHeight, eraSubsidy ((i + 1) / params.nSubsidyHalvingInterval) : ℕ) : ℤ) := by
    rw [subsidies, cast_sum]
    exact sum_congr rfl fun i _ => toInt_getBlockSubsidy_eq params (i + 1)
  rw [hcast, hmax]
  omega

end Subsidies

/-- The unspent coins after a number of blocks, none of which has a transaction that lists an outpoint twice. The
outputs of the genesis block are not among them. -/
inductive ConnectedChain (sha256 : Bytes → Uint256) (params : ConsensusParams) : ℕ → (COutPoint → Option Coin) → Prop
  | genesis : ConnectedChain sha256 params 0 fun _ => none
  | connect {nHeight : ℕ} {base : COutPoint → Option Coin} {ctx : ConnectContext sha256} {block block' : CBlock sha256}
      {fCheckPOW fCheckMerkleRoot : Bool} {st : ConnectState} (chain : ConnectedChain sha256 params nHeight base)
      (height : ctx.nHeight = nHeight + 1) (unchecked : block.fChecked = false)
      (checked : checkBlock block params fCheckPOW fCheckMerkleRoot = .ok block')
      (distinct : ∀ tx ∈ block.vtx, (tx.vin.map (·.prevout)).Nodup)
      (connected : connectBlock ctx params (coinsTip base) block = .ok st) :
      ConnectedChain sha256 params (nHeight + 1) st.view.flushed

lemma ConnectedChain.total_le (h : ConnectedChain sha256 params nHeight base) :
    (∀ o coin, base o = some coin → coin.InRange) ∧ (coinsTip base).total ≤ subsidies params nHeight := by
  induction h with
  | genesis =>
    have hnone : ∀ o, (coinsTip fun _ => none).ledger o = [] := fun _ => rfl
    refine ⟨fun _ _ hcoin => (nomatch hcoin), le_of_eq ?_⟩
    exact sum_eq_zero fun o _ => by rw [Ledger.top, hnone, List.head?_nil, Option.map_none, Option.getD_none]
  | connect _ height unchecked checked distinct connected ih =>
    obtain ⟨hbase, hle⟩ := ih
    obtain ⟨cb, txs, hacc⟩ := blockAccepted hbase (checked_of_checkBlock unchecked checked) connected
    have hgrows := (connectBlock_noInflation_of_nodup hbase unchecked checked connected distinct).1
    refine ⟨fun _ _ hcoin => hacc.built.inRange_flushed hcoin, ?_⟩
    rw [total_coinsTip_flushed, subsidies, sum_range_succ, ← height]
    exact hgrows.trans (add_le_add_left hle _)

/-- At every height the coins are worth at most the subsidies up to it, and at most `MAX_MONEY`. -/
theorem supply_capped (hpos : 0 < params.nSubsidyHalvingInterval) (hle : params.nSubsidyHalvingInterval ≤ 210000)
    (h : ConnectedChain sha256 params nHeight base) :
    (coinsTip base).total ≤ subsidies params nHeight ∧ (coinsTip base).total ≤ MAX_MONEY.toInt :=
  ⟨h.total_le.2, h.total_le.2.trans (subsidies_le_maxMoney hpos hle nHeight)⟩

section MaturedChain

def chainBlock (vtx : List (CTransaction cSHA256)) : CBlock cSHA256 where
  nVersion := 4
  hashPrevBlock := BaseBlob.null 32
  hashMerkleRoot := (computeMerkleRoot cSHA256 (vtx.map (·.hash))).1
  nTime := 1296688602
  nBits := 0x207fffff
  nNonce := 0
  hashUChainVersion := BaseBlob.null 32
  vtx := vtx
  fChecked := false

def laterCoinbaseTx : CTransaction cSHA256 where
  toCMutableTransaction := plainTransaction
    [⟨COutPoint.null, [0x51, 0x52], SEQUENCE_FINAL, []⟩] [⟨5000000000, [0x51]⟩]
  hash := BaseBlob.ofNat 32 0xfd1b1ecb622b743d6941d0c8d4aa0f579bd2f9ffc8666453295233b5d9aab202
  computeHash_eq := by decide +kernel

def maturedTx : CTransaction cSHA256 where
  toCMutableTransaction := plainTransaction
    [⟨⟨coinbaseTx.hash, 0⟩, [], SEQUENCE_FINAL, []⟩] [⟨4999999000, [0x51]⟩]
  hash := BaseBlob.ofNat 32 0xaad01d23cd3744f3c916e15ad19bc77d88bea4c93e69db5a6c631729e6b9557e
  computeHash_eq := by decide +kernel

/-- The first coinbase is spent as soon as it has matured. -/
def maturedChain : List (List (CTransaction cSHA256)) :=
  [coinbaseTx] :: List.replicate 99 [laterCoinbaseTx] ++ [[laterCoinbaseTx, maturedTx]]

/-- The coins after a run of blocks. -/
def connectAll : ℕ → List (List (CTransaction cSHA256)) → (COutPoint → Option Coin) →
    Except Failure (COutPoint → Option Coin)
  | _, [], base => .ok base
  | nHeight, vtx :: chain, base => do
    let st ← connectBlock (lenientContext (nHeight + 1)) regtest (coinsTip base) (chainBlock vtx)
    connectAll (nHeight + 1) chain st.view.flushed

lemma ConnectedChain.connectAll {chain : List (List (CTransaction cSHA256))} {base base' : COutPoint → Option Coin}
    (h : ConnectedChain cSHA256 regtest nHeight base)
    (hchain : ∀ vtx ∈ chain, (checkBlock (chainBlock vtx) regtest false true).isOk = true ∧
      ∀ tx ∈ vtx, (tx.vin.map (·.prevout)).Nodup)
    (hall : MutableBitcoin.connectAll nHeight chain base = .ok base') :
    ConnectedChain cSHA256 regtest (nHeight + chain.length) base' := by
  induction chain generalizing nHeight base with
  | nil =>
    obtain rfl := Except.ok.inj hall
    exact h
  | cons vtx chain ih =>
    obtain ⟨⟨hok, hdistinct⟩, hrest⟩ := List.forall_mem_cons.mp hchain
    obtain ⟨block', hchk⟩ := exists_ok_of_isOk hok
    obtain ⟨st, hst, hall⟩ := bind_eq_ok_iff.mp hall
    rw [List.length_cons, add_comm chain.length, ← add_assoc]
    exact ih (h.connect rfl rfl hchk hdistinct hst) hrest hall

theorem supply_capped_maturedChain :
    ∃ base, connectAll 0 maturedChain (fun _ => none) = .ok base ∧
      (coinsTip base).total ≤ subsidies regtest 101 ∧ (coinsTip base).total ≤ MAX_MONEY.toInt := by
  obtain ⟨base, hbase⟩ := exists_ok_of_isOk (x := connectAll 0 maturedChain (fun _ => none)) (by decide +kernel)
  have hchain : ConnectedChain cSHA256 regtest 101 base :=
    ConnectedChain.genesis.connectAll (by decide +kernel) hbase
  exact ⟨base, hbase, supply_capped (by decide) (by decide) hchain⟩

end MaturedChain

end MutableBitcoin
