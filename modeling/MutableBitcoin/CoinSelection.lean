import MutableBitcoin.Wallet
import MutableBitcoin.ConnectBlock
import MutableBitcoin.Lib.SelectedSum

/-!
# Coin selection

`ApproximateBestSubset` and `CWallet::SelectCoinsMinConf` of `wallet/wallet.cpp`. The shuffle, the order
of equal values after the sort and the random bits are arbitrary.
-/

namespace MutableBitcoin
open Lib List

variable {sha256 : Bytes → Uint256}

def MIN_CHANGE : CAmount := CENT

/-- An output of the wallet that may be spent. -/
structure COutput (sha256 : Bytes → Uint256) where
  tx : CWalletTx sha256
  i : Fin tx.tx.vout.length
  nDepth : ℤ
  fSpendable : Bool

/-- A coin to spend. -/
structure CInputCoin where
  outpoint : COutPoint
  txout : CTxOut
deriving DecidableEq

namespace CInputCoin

def ofOutput (output : COutput sha256) : CInputCoin :=
  ⟨⟨output.tx.getHash, UInt32.ofNat output.i⟩, output.tx.tx.vout.get output.i⟩

def value (coin : CInputCoin) : ℤ := coin.txout.nValue.toInt

end CInputCoin

/-- The pool and the settings of the selection. -/
structure SelectContext (sha256 : Bytes → Uint256) where
  mempool : CTxMemPool sha256
  isFromMe : CWalletTx sha256 → Bool
  nConfMine : ℤ
  nConfTheirs : ℤ
  nMaxAncestors : ℕ

def CTxMemPool.transactionWithinChainLimit (mempool : CTxMemPool sha256) (txid : Uint256) (chainLimit : ℕ) : Bool :=
  match mempool.mapTx.lookup txid with
  | none => true
  | some e => decide (e.nCountWithAncestors < chainLimit) && decide (e.nCountWithDescendants < chainLimit)

def SelectContext.isEligible (ctx : SelectContext sha256) (output : COutput sha256) : Bool :=
  output.fSpendable &&
    !decide (output.nDepth < if ctx.isFromMe output.tx then ctx.nConfMine else ctx.nConfTheirs) &&
    ctx.mempool.transactionWithinChainLimit output.tx.getHash ctx.nMaxAncestors

/-- The outcomes of `random_shuffle`, of `std::sort` by value and of the random bits. -/
structure SelectChoices (sha256 : Bytes → Uint256) where
  shuffle : List (COutput sha256) → List (COutput sha256)
  shuffle_perm : ∀ vCoins, (shuffle vCoins).Perm vCoins
  sort : List CInputCoin → List CInputCoin
  sort_perm : ∀ vValue, (sort vValue).Perm vValue
  sort_sorted : ∀ vValue, (sort vValue).Pairwise fun a b => a.txout.nValue ≤ b.txout.nValue
  /-- The bits that each call of `ApproximateBestSubset` draws in turn. -/
  randbool : ℕ → ℕ → Bool

section ApproximateBestSubset

variable (vValue : List CInputCoin) (nTargetValue : CAmount)

/-- The variables of a repetition. -/
structure Attempt where
  vfIncluded : List Bool
  nTotal : CAmount
  fReachedTarget : Bool
  vfBest : List Bool
  nBest : CAmount

/-- The loop body of `ApproximateBestSubset`. -/
def visitCoin (included : Attempt → ℕ → Bool) (s : Attempt) (coin : CInputCoin × ℕ) :
    Except AmountFailure Attempt :=
  if included s coin.2 then do
    let nTotal ← addAmount s.nTotal coin.1.txout.nValue
    let vfIncluded := s.vfIncluded.set coin.2 true
    if nTargetValue ≤ nTotal then do
      let nRest ← subAmount nTotal coin.1.txout.nValue
      .ok
        { vfIncluded := vfIncluded.set coin.2 false
          nTotal := nRest
          fReachedTarget := true
          vfBest := if nTotal < s.nBest then vfIncluded else s.vfBest
          nBest := if nTotal < s.nBest then nTotal else s.nBest }
    else
      .ok { s with vfIncluded := vfIncluded, nTotal := nTotal }
  else
    .ok s

def selectionPass (included : Attempt → ℕ → Bool) (s : Attempt) : Except AmountFailure Attempt :=
  vValue.zipIdx.foldlM (visitCoin nTargetValue included) s

def selectionSecondPass (first : Attempt) : Except AmountFailure Attempt :=
  if first.fReachedTarget then .ok first
  else selectionPass vValue nTargetValue (fun s i => !s.vfIncluded.getD i false) first

def selectionRepetition (randbool : ℕ → Bool) (nRep : ℕ) (best : List Bool × CAmount) :
    Except AmountFailure (List Bool × CAmount) := do
  let start : Attempt := ⟨List.replicate vValue.length false, 0, false, best.1, best.2⟩
  let first ← selectionPass vValue nTargetValue (fun _ i => randbool (nRep * vValue.length + i)) start
  let last ← selectionSecondPass vValue nTargetValue first
  .ok (last.vfBest, last.nBest)

/-- The outer loop of `ApproximateBestSubset`. -/
def selectionRepetitions (randbool : ℕ → Bool) :
    ℕ → ℕ → List Bool × CAmount → Except AmountFailure (List Bool × CAmount)
  | 0, _, best => .ok best
  | iterations + 1, nRep, best =>
    if best.2 = nTargetValue then .ok best
    else do
      let next ← selectionRepetition vValue nTargetValue randbool nRep best
      selectionRepetitions randbool iterations (nRep + 1) next

def approximateBestSubset (randbool : ℕ → Bool) (nTotalLower : CAmount) (iterations : ℕ) :
    Except AmountFailure (List Bool × CAmount) :=
  selectionRepetitions vValue nTargetValue randbool iterations 0
    (List.replicate vValue.length true, nTotalLower)

end ApproximateBestSubset

section SelectCoinsMinConf

variable (ctx : SelectContext sha256) (nTargetValue : CAmount)

/-- The coins below the target, and the least of the others. -/
structure CoinScan where
  coinLowestLarger : Option CInputCoin
  vValue : List CInputCoin
  nTotalLower : CAmount

/-- `!coinLowestLarger || coin.txout.nValue < coinLowestLarger->txout.nValue` -/
def CoinScan.isLower (s : CoinScan) (coin : CInputCoin) : Bool :=
  match s.coinLowestLarger with
  | none => true
  | some larger => decide (coin.txout.nValue < larger.txout.nValue)

/-- The loop over the coins in `SelectCoinsMinConf`. -/
def scanCoins : List (COutput sha256) → CoinScan → Except AmountFailure (CInputCoin ⊕ CoinScan)
  | [], s => .ok (.inr s)
  | output :: vCoins, s =>
    if ctx.isEligible output then
      let coin := CInputCoin.ofOutput output
      if coin.txout.nValue = nTargetValue then .ok (.inl coin)
      else do
        let limit ← addAmount nTargetValue MIN_CHANGE
        if coin.txout.nValue < limit then do
          let nTotalLower ← addAmount s.nTotalLower coin.txout.nValue
          scanCoins vCoins { s with vValue := s.vValue ++ [coin], nTotalLower := nTotalLower }
        else if s.isLower coin then scanCoins vCoins { s with coinLowestLarger := some coin }
        else scanCoins vCoins s
    else scanCoins vCoins s

/-- The returned value with `setCoinsRet` and `nValueRet`. -/
structure CoinSelection where
  result : Bool
  setCoinsRet : List CInputCoin
  nValueRet : CAmount
deriving DecidableEq

/-- `std::set::insert`, which keeps a coin whose outpoint is there already. -/
def insertCoin (setCoinsRet : List CInputCoin) (coin : CInputCoin) : List CInputCoin :=
  if setCoinsRet.any (·.outpoint == coin.outpoint) then setCoinsRet else setCoinsRet ++ [coin]

/-- The chosen coins and their sum. -/
def returnCoins (coins : List CInputCoin) : Except AmountFailure CoinSelection :=
  coins.foldlM
    (fun sel coin => do
      let nValueRet ← addAmount sel.nValueRet coin.txout.nValue
      .ok { sel with setCoinsRet := insertCoin sel.setCoinsRet coin, nValueRet := nValueRet })
    ⟨true, [], 0⟩

def closerCoin (s : CoinScan) (limit nBest : CAmount) : Option CInputCoin :=
  s.coinLowestLarger.filter fun larger =>
    (decide (nBest ≠ nTargetValue) && decide (nBest < limit)) || decide (larger.txout.nValue ≤ nBest)

def selectWithChange (choices : SelectChoices sha256) (vValue : List CInputCoin)
    (limit nTotalLower : CAmount) (best : List Bool × CAmount) :
    Except AmountFailure (List Bool × CAmount) :=
  if best.2 ≠ nTargetValue ∧ limit ≤ nTotalLower then
    approximateBestSubset vValue limit (choices.randbool 1) nTotalLower 1000
  else .ok best

/-- The choice between the subset and the larger coin. -/
def selectSubset (choices : SelectChoices sha256) (s : CoinScan) : Except AmountFailure CoinSelection := do
  let vValue := (choices.sort s.vValue).reverse
  let limit ← addAmount nTargetValue MIN_CHANGE
  let best ← approximateBestSubset vValue nTargetValue (choices.randbool 0) s.nTotalLower 1000
  let best ← selectWithChange nTargetValue choices vValue limit s.nTotalLower best
  match closerCoin nTargetValue s limit best.2 with
  | some larger => returnCoins [larger]
  | none => returnCoins (select vValue best.1)

/-- `SelectCoinsMinConf` behind its loop. -/
def selectScanned (choices : SelectChoices sha256) (s : CoinScan) : Except AmountFailure CoinSelection :=
  if s.nTotalLower = nTargetValue then returnCoins s.vValue
  else if s.nTotalLower < nTargetValue then
    match s.coinLowestLarger with
    | none => .ok ⟨false, [], 0⟩
    | some larger => returnCoins [larger]
  else selectSubset nTargetValue choices s

def selectCoinsMinConf (choices : SelectChoices sha256) (vCoins : List (COutput sha256)) :
    Except AmountFailure CoinSelection := do
  match ← scanCoins ctx nTargetValue (choices.shuffle vCoins) ⟨none, [], 0⟩ with
  | .inl coin => returnCoins [coin]
  | .inr s => selectScanned nTargetValue choices s

end SelectCoinsMinConf

end MutableBitcoin

/-! ## The search for a subset -/

namespace MutableBitcoin
open Lib List

variable {vValue : List CInputCoin} {nTargetValue : CAmount}

/-- The flags select the best total, which reaches the target. -/
structure BestSubset (vValue : List CInputCoin) (nTargetValue : CAmount) (best : List Bool × CAmount) : Prop where
  total : best.2.toInt = selectedSum (vValue.map CInputCoin.value) best.1
  reaches : nTargetValue.toInt ≤ best.2.toInt

/-- What a repetition keeps. -/
structure AttemptInv (vValue : List CInputCoin) (nTargetValue : CAmount) (s : Attempt) : Prop where
  length : s.vfIncluded.length = vValue.length
  total : s.nTotal.toInt = selectedSum (vValue.map CInputCoin.value) s.vfIncluded
  below : s.nTotal.toInt < nTargetValue.toInt
  best : BestSubset vValue nTargetValue (s.vfBest, s.nBest)

section Visits

variable (hvalues : ∀ coin ∈ vValue, 0 ≤ coin.value)
  (hfits : FitsInt64 (vValue.map CInputCoin.value).sum)
include hvalues hfits

lemma fits_selectedSum (flags : List Bool) :
    FitsInt64 (selectedSum (vValue.map CInputCoin.value) flags) := by
  have hnonneg : ∀ v ∈ vValue.map CInputCoin.value, 0 ≤ v := forall_mem_map.mpr hvalues
  have hle := selectedSum_le flags hnonneg
  have hge := selectedSum_nonneg flags hnonneg
  exact ⟨by omega, lt_of_le_of_lt hle hfits.2⟩

lemma visitCoin_spec {included : Attempt → ℕ → Bool} {s : Attempt} {coin : CInputCoin} {i : ℕ}
    (hinv : AttemptInv vValue nTargetValue s) (hcoin : vValue[i]? = some coin)
    (hfree : included s i = true → s.vfIncluded[i]? ≠ some true) :
    ∃ s', visitCoin nTargetValue included s (coin, i) = .ok s' ∧ AttemptInv vValue nTargetValue s' ∧
      ∀ j, j ≠ i → s'.vfIncluded[j]? = s.vfIncluded[j]? := by
  rw [visitCoin]
  split_ifs with hincluded
  swap
  · exact ⟨s, rfl, hinv, fun _ _ => rfl⟩
  have hi : i < s.vfIncluded.length := by
    rw [hinv.length]
    exact (List.getElem?_eq_some_iff.mp hcoin).1
  have hflag : s.vfIncluded[i]? = some false := by
    have hne := hfree hincluded
    rw [getElem?_eq_getElem hi] at hne ⊢
    rw [Option.some.injEq, ← Bool.not_eq_true]
    exact fun htrue => hne (congrArg some htrue)
  have hvalue : (vValue.map CInputCoin.value)[i]? = some coin.value := by
    rw [getElem?_map, hcoin]
    rfl
  have hsum : s.nTotal.toInt + coin.txout.nValue.toInt =
      selectedSum (vValue.map CInputCoin.value) (s.vfIncluded.set i true) := by
    rw [selectedSum_set_true hvalue hflag, hinv.total]
    rfl
  have hfit := fits_selectedSum hvalues hfits (s.vfIncluded.set i true)
  rw [← hsum] at hfit
  obtain ⟨nTotal, hadd, hnTotal⟩ := checkedAmount_of_fits hfit
  have hadd' : addAmount s.nTotal coin.txout.nValue = .ok nTotal := hadd
  rw [hadd', ok_bind]
  dsimp only
  by_cases hreached : nTargetValue ≤ nTotal
  · -- The coin reaches the target: it is noted and taken out again.
    have hrest : FitsInt64 (nTotal.toInt - coin.txout.nValue.toInt) := by
      rw [hnTotal, add_sub_cancel_right]
      exact fitsInt64_toInt s.nTotal
    obtain ⟨nRest, hsub, hnRest⟩ := checkedAmount_of_fits hrest
    have hsub' : subAmount nTotal coin.txout.nValue = .ok nRest := hsub
    have hflags : (s.vfIncluded.set i true).set i false = s.vfIncluded := by
      rw [set_set]
      obtain ⟨hi, hfalse⟩ := List.getElem?_eq_some_iff.mp hflag
      rw [← hfalse]
      exact set_getElem_self hi
    rw [if_pos hreached, hsub', ok_bind, hflags]
    refine ⟨_, rfl, ?_, fun _ _ => rfl⟩
    rw [hnTotal, add_sub_cancel_right] at hnRest
    refine ⟨hinv.length, hnRest.trans hinv.total, hnRest.trans_lt hinv.below, ?_⟩
    dsimp only
    split_ifs with hbetter
    · exact ⟨hnTotal.trans hsum, Int64.le_iff_toInt_le.mp hreached⟩
    · exact hinv.best
  · rw [if_neg hreached]
    refine ⟨_, rfl, ⟨?_, hnTotal.trans hsum, ?_, hinv.best⟩, ?_⟩
    · rw [length_set]
      exact hinv.length
    · rw [Int64.le_iff_toInt_le] at hreached
      exact not_le.mp hreached
    · intro j hj
      exact getElem?_set_ne (Ne.symm hj)

lemma selectionPass_spec (included : Attempt → ℕ → Bool) (free : ℕ → List Bool → Prop) {s : Attempt}
    (hfree : ∀ s i, free i s.vfIncluded → included s i = true → s.vfIncluded[i]? ≠ some true)
    (hnext : ∀ i flags flags', (∀ j, j ≠ i → flags'[j]? = flags[j]?) → free i flags → free (i + 1) flags')
    (hinv : AttemptInv vValue nTargetValue s) (hstart : free 0 s.vfIncluded) :
    ∃ s', selectionPass vValue nTargetValue included s = .ok s' ∧ AttemptInv vValue nTargetValue s' := by
  obtain ⟨s', hrun, hinv', -⟩ := foldlM_ok (f := visitCoin nTargetValue included) (l := vValue.zipIdx)
    (I := fun pre s => AttemptInv vValue nTargetValue s ∧ free pre.length s.vfIncluded)
    (by
      rintro pre ⟨coin, i⟩ post s hl ⟨hinv, hfreeAt⟩
      have hat : vValue.zipIdx[pre.length]? = some (coin, i) := by
        rw [← hl]
        simp
      rw [getElem?_zipIdx, Option.map_eq_some_iff] at hat
      obtain ⟨coin', hcoin, heq⟩ := hat
      obtain ⟨rfl, rfl⟩ := Prod.mk.inj heq
      rw [Nat.zero_add] at hl ⊢
      obtain ⟨s', hs', hinv', hother⟩ := visitCoin_spec hvalues hfits hinv hcoin (hfree s _ hfreeAt)
      refine ⟨s', hs', hinv', ?_⟩
      rw [length_append, length_singleton]
      exact hnext _ _ _ hother hfreeAt)
    ⟨hinv, hstart⟩
  exact ⟨s', hrun, hinv'⟩

lemma selectionSecondPass_spec {first : Attempt} (hinv : AttemptInv vValue nTargetValue first) :
    ∃ last, selectionSecondPass vValue nTargetValue first = .ok last ∧
      AttemptInv vValue nTargetValue last := by
  rw [selectionSecondPass]
  split_ifs with hreached
  · exact ⟨first, rfl, hinv⟩
  · refine selectionPass_spec hvalues hfits _ (fun _ _ => True) ?_
      (fun _ _ _ _ _ => trivial) hinv trivial
    intro s i _ hincluded hflag
    rw [getD_eq_getElem?_getD, hflag] at hincluded
    exact Bool.false_ne_true hincluded

lemma selectionRepetition_spec (randbool : ℕ → Bool) (nRep : ℕ) {best : List Bool × CAmount}
    (htarget : 0 < nTargetValue.toInt) (hbest : BestSubset vValue nTargetValue best) :
    ∃ best', selectionRepetition vValue nTargetValue randbool nRep best = .ok best' ∧
      BestSubset vValue nTargetValue best' := by
  have hstart : AttemptInv vValue nTargetValue
      ⟨List.replicate vValue.length false, 0, false, best.1, best.2⟩ := by
    refine ⟨length_replicate, ?_, htarget, hbest⟩
    rw [selectedSum, select_replicate_false]
    rfl
  -- In the first pass no flag is set from the visited place on.
  obtain ⟨first, hfirst, hinv⟩ := selectionPass_spec hvalues hfits
    (fun _ i => randbool (nRep * vValue.length + i))
    (fun i flags => ∀ j, i ≤ j → flags[j]? ≠ some true)
    (fun s i hfree _ => hfree i le_rfl)
    (fun i flags flags' hsame hfree j hj => by
      rw [hsame j (by omega)]
      exact hfree j (by omega))
    hstart
    (fun j _ h => by simp [getElem?_replicate] at h)
  obtain ⟨last, hlast, hinv'⟩ := selectionSecondPass_spec hvalues hfits hinv
  refine ⟨(last.vfBest, last.nBest), ?_, hinv'.best⟩
  rw [selectionRepetition, hfirst, ok_bind, hlast, ok_bind]

lemma selectionRepetitions_spec (randbool : ℕ → Bool) (htarget : 0 < nTargetValue.toInt)
    (iterations nRep : ℕ) {best : List Bool × CAmount} (hbest : BestSubset vValue nTargetValue best) :
    ∃ best', selectionRepetitions vValue nTargetValue randbool iterations nRep best = .ok best' ∧
      BestSubset vValue nTargetValue best' := by
  induction iterations generalizing nRep best with
  | zero => exact ⟨best, rfl, hbest⟩
  | succ iterations ih =>
    rw [selectionRepetitions]
    split_ifs with hexact
    · exact ⟨best, rfl, hbest⟩
    · obtain ⟨next, hnext, hbest'⟩ := selectionRepetition_spec hvalues hfits randbool nRep htarget hbest
      rw [hnext, ok_bind]
      exact ih (nRep + 1) hbest'

lemma approximateBestSubset_spec (randbool : ℕ → Bool) (iterations : ℕ) {nTotalLower : CAmount}
    (htarget : 0 < nTargetValue.toInt) (htotal : nTotalLower.toInt = (vValue.map CInputCoin.value).sum)
    (henough : nTargetValue.toInt ≤ nTotalLower.toInt) :
    ∃ best, approximateBestSubset vValue nTargetValue randbool nTotalLower iterations = .ok best ∧
      BestSubset vValue nTargetValue best := by
  refine selectionRepetitions_spec hvalues hfits randbool htarget iterations 0 ⟨?_, henough⟩
  have hall := select_replicate_true (l := vValue.map CInputCoin.value)
  rw [length_map] at hall
  rw [selectedSum, hall]
  exact htotal

end Visits

end MutableBitcoin
