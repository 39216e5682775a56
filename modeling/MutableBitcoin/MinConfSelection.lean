import MutableBitcoin.CoinSelection

/-!
# The selected coins

`SelectCoinsMinConf` succeeds exactly when the eligible outputs are worth the target, and leaves no change
or enough of it where the eligible outputs allow that.
-/

namespace MutableBitcoin
open Lib List Int64

variable {sha256 : Bytes → Uint256}

def eligibleCoins (ctx : SelectContext sha256) (vCoins : List (COutput sha256)) : List CInputCoin :=
  (vCoins.filter ctx.isEligible).map CInputCoin.ofOutput

def totalValue (coins : List CInputCoin) : ℤ := (coins.map CInputCoin.value).sum

def lowerCoins (limit : ℤ) (coins : List CInputCoin) : List CInputCoin :=
  coins.filter fun coin => decide (coin.value < limit)

/-- A choice of coins that pays for the target. The coins are different outputs, and the change is none or
enough, unless the given coins cannot leave enough. -/
structure PaysTarget (nTargetValue : CAmount) (coins : List CInputCoin) (sel : CoinSelection) : Prop where
  eligible : ∀ coin ∈ sel.setCoinsRet, coin ∈ coins
  distinct : (sel.setCoinsRet.map (·.outpoint)).Nodup
  total : sel.nValueRet.toInt = totalValue sel.setCoinsRet
  enough : nTargetValue.toInt ≤ sel.nValueRet.toInt
  change : sel.nValueRet = nTargetValue ∨ nTargetValue.toInt + MIN_CHANGE.toInt ≤ sel.nValueRet.toInt ∨
    ((∀ coin ∈ coins, coin.value < nTargetValue.toInt + MIN_CHANGE.toInt) ∧
      totalValue coins < nTargetValue.toInt + MIN_CHANGE.toInt)

section Totals

variable {chosen coins : List CInputCoin}

lemma totalValue_perm (h : chosen.Perm coins) : totalValue chosen = totalValue coins :=
  (h.map _).sum_eq

lemma totalValue_append : totalValue (chosen ++ coins) = totalValue chosen + totalValue coins := by
  rw [totalValue, map_append, sum_append]
  rfl

lemma totalValue_cons (coin : CInputCoin) : totalValue (coin :: coins) = coin.value + totalValue coins := by
  rw [totalValue, map_cons, sum_cons]
  rfl

lemma totalValue_nonneg (hvalues : ∀ coin ∈ coins, 0 ≤ coin.value) : 0 ≤ totalValue coins :=
  sum_nonneg (forall_mem_map.mpr hvalues)

lemma lowerCoins_append (limit : ℤ) :
    lowerCoins limit (chosen ++ coins) = lowerCoins limit chosen ++ lowerCoins limit coins :=
  filter_append _ _

lemma lowerCoins_singleton {limit : ℤ} {coin : CInputCoin} (h : coin.value < limit) :
    lowerCoins limit [coin] = [coin] :=
  filter_cons_of_pos (decide_eq_true h)

lemma lowerCoins_singleton_of_not {limit : ℤ} {coin : CInputCoin} (h : ¬coin.value < limit) :
    lowerCoins limit [coin] = [] :=
  filter_cons_of_neg fun htrue => h (of_decide_eq_true htrue)

lemma totalValue_le_of_subset (hvalues : ∀ coin ∈ coins, 0 ≤ coin.value) (hmem : ∀ coin ∈ chosen, coin ∈ coins)
    (hdistinct : (chosen.map (·.outpoint)).Nodup) : totalValue chosen ≤ totalValue coins := by
  obtain ⟨part, hperm, hpart⟩ := subperm_of_subset (List.Nodup.of_map _ hdistinct) hmem
  rw [← totalValue_perm hperm]
  exact (hpart.map CInputCoin.value).sum_le_sum (forall_mem_map.mpr hvalues)

lemma PaysTarget.target_le {nTargetValue : CAmount} {sel : CoinSelection} (h : PaysTarget nTargetValue coins sel)
    (hvalues : ∀ coin ∈ coins, 0 ≤ coin.value) : nTargetValue.toInt ≤ totalValue coins := by
  have hle := totalValue_le_of_subset hvalues h.eligible h.distinct
  rw [← h.total] at hle
  exact h.enough.trans hle

lemma PaysTarget.perm {nTargetValue : CAmount} {sel : CoinSelection} (h : PaysTarget nTargetValue chosen sel)
    (hperm : chosen.Perm coins) : PaysTarget nTargetValue coins sel where
  eligible coin hcoin := hperm.mem_iff.mp (h.eligible coin hcoin)
  distinct := h.distinct
  total := h.total
  enough := h.enough
  change := by
    obtain hexact | hchange | ⟨hsmall, htotal⟩ := h.change
    · exact Or.inl hexact
    · exact Or.inr (Or.inl hchange)
    · rw [totalValue_perm hperm] at htotal
      exact Or.inr (Or.inr ⟨fun coin hcoin => hsmall coin (hperm.mem_iff.mpr hcoin), htotal⟩)

end Totals

section Return

lemma returnCoins_spec {coins : List CInputCoin} (hdistinct : (coins.map (·.outpoint)).Nodup)
    (hvalues : ∀ coin ∈ coins, 0 ≤ coin.value) (hfits : FitsInt64 (totalValue coins)) :
    ∃ nValueRet, returnCoins coins = .ok ⟨true, coins, nValueRet⟩ ∧ nValueRet.toInt = totalValue coins := by
  obtain ⟨sel, hrun, hresult, hset, hvalue⟩ := foldlM_ok
    (f := fun (sel : CoinSelection) (coin : CInputCoin) => do
      let nValueRet ← addAmount sel.nValueRet coin.txout.nValue
      .ok { sel with setCoinsRet := insertCoin sel.setCoinsRet coin, nValueRet := nValueRet })
    (l := coins) (s := ⟨true, [], 0⟩)
    (I := fun pre sel => sel.result = true ∧ sel.setCoinsRet = pre ∧ sel.nValueRet.toInt = totalValue pre)
    (by
      rintro pre coin post ⟨result, setCoinsRet, nValueRet⟩ hl ⟨hresult, hset, hvalue⟩
      dsimp only at hresult hset hvalue
      subst hset
      rw [append_cons setCoinsRet coin post] at hl
      have hsum : totalValue (setCoinsRet ++ [coin]) = nValueRet.toInt + coin.txout.nValue.toInt := by
        rw [hvalue, totalValue_append, totalValue_cons]
        exact congrArg _ (add_zero _)
      have hpost : 0 ≤ totalValue post :=
        totalValue_nonneg fun c hc => hvalues c (hl ▸ mem_append_right _ hc)
      have hle : totalValue (setCoinsRet ++ [coin]) ≤ totalValue coins := by
        have happend := @totalValue_append (setCoinsRet ++ [coin]) post
        rw [hl] at happend
        omega
      have hge : 0 ≤ totalValue (setCoinsRet ++ [coin]) :=
        totalValue_nonneg fun c hc => hvalues c (hl ▸ mem_append_left _ hc)
      obtain ⟨nNew, hadd, hnNew⟩ := checkedAmount_of_fits (x := nValueRet.toInt + coin.txout.nValue.toInt)
        (by rw [← hsum]; exact ⟨by omega, lt_of_le_of_lt hle hfits.2⟩)
      have hadd' : addAmount nValueRet coin.txout.nValue = .ok nNew := hadd
      have hnew : insertCoin setCoinsRet coin = setCoinsRet ++ [coin] := by
        rw [insertCoin, if_neg]
        intro hany
        obtain ⟨c, hc, heq⟩ := any_eq_true.mp hany
        rw [← hl, ← append_cons, map_append, map_cons] at hdistinct
        refine disjoint_of_nodup_append hdistinct (mem_map_of_mem hc) ?_
        rw [eq_of_beq heq]
        exact mem_cons_self
      dsimp only
      rw [hadd', ok_bind, hnew]
      exact ⟨_, rfl, hresult, rfl, hnNew.trans hsum.symm⟩)
    ⟨rfl, rfl, rfl⟩
  obtain ⟨result, setCoinsRet, nValueRet⟩ := sel
  dsimp only at hresult hset hvalue
  rw [hresult, hset] at hrun
  exact ⟨nValueRet, hrun, hvalue⟩

lemma returnCoins_pays {nTargetValue : CAmount} {chosen coins : List CInputCoin}
    (hmem : ∀ coin ∈ chosen, coin ∈ coins) (hdistinct : (chosen.map (·.outpoint)).Nodup)
    (hvalues : ∀ coin ∈ coins, 0 ≤ coin.value) (hfits : FitsInt64 (totalValue chosen))
    (henough : nTargetValue.toInt ≤ totalValue chosen)
    (hchange : totalValue chosen = nTargetValue.toInt ∨
      nTargetValue.toInt + MIN_CHANGE.toInt ≤ totalValue chosen ∨
      ((∀ coin ∈ coins, coin.value < nTargetValue.toInt + MIN_CHANGE.toInt) ∧
        totalValue coins < nTargetValue.toInt + MIN_CHANGE.toInt)) :
    ∃ sel, returnCoins chosen = .ok sel ∧ sel.result = true ∧ PaysTarget nTargetValue coins sel := by
  obtain ⟨nValueRet, hrun, htotal⟩ :=
    returnCoins_spec hdistinct (fun coin hcoin => hvalues coin (hmem coin hcoin)) hfits
  refine ⟨_, hrun, rfl, hmem, hdistinct, htotal, henough.trans_eq htotal.symm, ?_⟩
  dsimp only
  rw [htotal, ← toInt_inj, htotal]
  exact hchange

end Return

section Scan

variable {ctx : SelectContext sha256} {nTargetValue : CAmount}

lemma eligibleCoins_cons_of_eligible {output : COutput sha256} {vCoins : List (COutput sha256)}
    (h : ctx.isEligible output = true) :
    eligibleCoins ctx (output :: vCoins) = CInputCoin.ofOutput output :: eligibleCoins ctx vCoins := by
  rw [eligibleCoins, filter_cons_of_pos h, map_cons, eligibleCoins]

lemma eligibleCoins_cons_of_not {output : COutput sha256} {vCoins : List (COutput sha256)}
    (h : ¬ctx.isEligible output = true) :
    eligibleCoins ctx (output :: vCoins) = eligibleCoins ctx vCoins := by
  rw [eligibleCoins, filter_cons_of_neg h, eligibleCoins]

/-- What the scan of the coins keeps. -/
structure ScanInv (limit : ℤ) (seen : List CInputCoin) (s : CoinScan) : Prop where
  lower : s.vValue = lowerCoins limit seen
  total : s.nTotalLower.toInt = totalValue s.vValue
  larger : ∀ coin, s.coinLowestLarger = some coin → coin ∈ seen ∧ limit ≤ coin.value
  noLarger : s.coinLowestLarger = none → ∀ coin ∈ seen, coin.value < limit

lemma ScanInv.start (limit : ℤ) : ScanInv limit [] ⟨none, [], 0⟩ where
  lower := rfl
  total := rfl
  larger _ h := nomatch h
  noLarger _ _ h := absurd h not_mem_nil

lemma ScanInv.lower_coin {limit : ℤ} {seen : List CInputCoin} {s : CoinScan} {coin : CInputCoin}
    {nTotalLower : CAmount} (hinv : ScanInv limit seen s) (hcoin : coin.value < limit)
    (htotal : nTotalLower.toInt = s.nTotalLower.toInt + coin.value) :
    ScanInv limit (seen ++ [coin]) { s with vValue := s.vValue ++ [coin], nTotalLower := nTotalLower } where
  lower := by
    rw [lowerCoins_append, lowerCoins_singleton hcoin, hinv.lower]
  total := by
    rw [htotal, hinv.total, totalValue_append, totalValue_cons]
    exact congrArg _ (add_zero _).symm
  larger c hc := by
    obtain ⟨hmem, hle⟩ := hinv.larger c hc
    exact ⟨mem_append_left _ hmem, hle⟩
  noLarger hnone := by
    intro c hc
    rcases mem_append.mp hc with hc | hc
    · exact hinv.noLarger hnone c hc
    · rw [mem_singleton.mp hc]
      exact hcoin

lemma ScanInv.larger_coin {limit : ℤ} {seen : List CInputCoin} {s : CoinScan} {coin : CInputCoin}
    (hinv : ScanInv limit seen s) (hcoin : ¬coin.value < limit) :
    ScanInv limit (seen ++ [coin]) (if s.isLower coin then { s with coinLowestLarger := some coin } else s) := by
  have hlower : lowerCoins limit (seen ++ [coin]) = lowerCoins limit seen := by
    rw [lowerCoins_append, lowerCoins_singleton_of_not hcoin, append_nil]
  split_ifs with hless
  · refine ⟨hinv.lower.trans hlower.symm, hinv.total, ?_, fun hnone => nomatch hnone⟩
    intro c hc
    obtain rfl : coin = c := Option.some.inj hc
    exact ⟨mem_append_right _ mem_cons_self, not_lt.mp hcoin⟩
  · refine ⟨hinv.lower.trans hlower.symm, hinv.total, ?_, ?_⟩
    · intro c hc
      obtain ⟨hmem, hle⟩ := hinv.larger c hc
      exact ⟨mem_append_left _ hmem, hle⟩
    · intro hnone
      rw [CoinScan.isLower, hnone] at hless
      exact absurd rfl hless

lemma fits_lower_step {limit : ℤ} {seen rest : List CInputCoin} {s : CoinScan} {coin : CInputCoin}
    (hinv : ScanInv limit seen s) (hcoin : coin.value < limit)
    (hvalues : ∀ c ∈ seen ++ [coin] ++ rest, 0 ≤ c.value)
    (hfits : FitsInt64 (totalValue (lowerCoins limit (seen ++ [coin] ++ rest)))) :
    FitsInt64 (s.nTotalLower.toInt + coin.value) := by
  have hlower : ∀ c ∈ lowerCoins limit (seen ++ [coin] ++ rest), 0 ≤ c.value :=
    fun c hc => hvalues c (mem_of_mem_filter hc)
  have hsplit : lowerCoins limit (seen ++ [coin] ++ rest) = s.vValue ++ coin :: lowerCoins limit rest := by
    rw [lowerCoins_append, lowerCoins_append, lowerCoins_singleton hcoin, hinv.lower, append_assoc,
      singleton_append]
  rw [hsplit] at hlower hfits
  have hsum : totalValue (s.vValue ++ coin :: lowerCoins limit rest) =
      s.nTotalLower.toInt + coin.value + totalValue (lowerCoins limit rest) := by
    rw [hinv.total, totalValue_append, totalValue_cons, add_assoc]
  have hprefix : 0 ≤ totalValue s.vValue :=
    totalValue_nonneg fun c hc => hlower c (mem_append_left _ hc)
  have hsuffix : 0 ≤ totalValue (lowerCoins limit rest) :=
    totalValue_nonneg fun c hc => hlower c (mem_append_right _ (mem_cons_of_mem _ hc))
  have hnonneg : 0 ≤ coin.value := hlower coin (mem_append_right _ mem_cons_self)
  have hbound := hfits.2
  have hbase := hinv.total
  exact ⟨by omega, by omega⟩

lemma scanCoins_spec {vCoins : List (COutput sha256)} {seen : List CInputCoin} {s : CoinScan}
    (hlimit : FitsInt64 (nTargetValue.toInt + MIN_CHANGE.toInt))
    (hinv : ScanInv (nTargetValue.toInt + MIN_CHANGE.toInt) seen s)
    (hvalues : ∀ coin ∈ seen ++ eligibleCoins ctx vCoins, 0 ≤ coin.value)
    (hfits : FitsInt64 (totalValue
      (lowerCoins (nTargetValue.toInt + MIN_CHANGE.toInt) (seen ++ eligibleCoins ctx vCoins)))) :
    (∃ coin ∈ eligibleCoins ctx vCoins, coin.value = nTargetValue.toInt ∧
      scanCoins ctx nTargetValue vCoins s = .ok (.inl coin)) ∨
    ∃ s', scanCoins ctx nTargetValue vCoins s = .ok (.inr s') ∧
      ScanInv (nTargetValue.toInt + MIN_CHANGE.toInt) (seen ++ eligibleCoins ctx vCoins) s' := by
  induction vCoins generalizing seen s with
  | nil =>
    refine Or.inr ⟨s, rfl, ?_⟩
    rw [eligibleCoins, filter_nil, map_nil, append_nil]
    exact hinv
  | cons output vCoins ih =>
    rw [scanCoins]
    by_cases heligible : ctx.isEligible output = true
    swap
    · rw [if_neg heligible, eligibleCoins_cons_of_not heligible]
      rw [eligibleCoins_cons_of_not heligible] at hvalues hfits
      exact ih hinv hvalues hfits
    rw [if_pos heligible, eligibleCoins_cons_of_eligible heligible]
    rw [eligibleCoins_cons_of_eligible heligible] at hvalues hfits
    dsimp only
    generalize CInputCoin.ofOutput output = coin at *
    rw [append_cons] at hvalues hfits
    by_cases hexact : coin.txout.nValue = nTargetValue
    · rw [if_pos hexact]
      exact Or.inl ⟨coin, mem_cons_self, congrArg Int64.toInt hexact, rfl⟩
    rw [if_neg hexact]
    obtain ⟨limit, hadd, hlimitEq⟩ := checkedAmount_of_fits hlimit
    have hadd' : addAmount nTargetValue MIN_CHANGE = .ok limit := hadd
    rw [hadd', ok_bind]
    have hrest : ∀ s', ScanInv (nTargetValue.toInt + MIN_CHANGE.toInt) (seen ++ [coin]) s' →
        (∃ c ∈ coin :: eligibleCoins ctx vCoins, c.value = nTargetValue.toInt ∧
          scanCoins ctx nTargetValue vCoins s' = .ok (.inl c)) ∨
        ∃ s'', scanCoins ctx nTargetValue vCoins s' = .ok (.inr s'') ∧
          ScanInv (nTargetValue.toInt + MIN_CHANGE.toInt) (seen ++ coin :: eligibleCoins ctx vCoins) s'' := by
      intro s' hinv'
      rw [append_cons]
      obtain ⟨c, hc, hvalue, hrun⟩ | hscanned := ih hinv' hvalues hfits
      · exact Or.inl ⟨c, mem_cons_of_mem _ hc, hvalue, hrun⟩
      · exact Or.inr hscanned
    by_cases hlower : coin.txout.nValue < limit
    · rw [if_pos hlower]
      have hless : coin.value < nTargetValue.toInt + MIN_CHANGE.toInt := by
        rw [← hlimitEq]
        exact lt_iff_toInt_lt.mp hlower
      have hfit := fits_lower_step hinv hless hvalues hfits
      obtain ⟨nTotalLower, htotal, hvalue⟩ := checkedAmount_of_fits hfit
      have htotal' : addAmount s.nTotalLower coin.txout.nValue = .ok nTotalLower := htotal
      rw [htotal', ok_bind]
      exact hrest _ (hinv.lower_coin hless hvalue)
    · rw [if_neg hlower]
      have hnotLess : ¬coin.value < nTargetValue.toInt + MIN_CHANGE.toInt := by
        rw [← hlimitEq]
        exact fun h => hlower (lt_iff_toInt_lt.mpr h)
      have hnext := hrest _ (hinv.larger_coin hnotLess)
      split_ifs at hnext ⊢ with hbetter
      · exact hnext
      · exact hnext

end Scan

section Selection

variable {ctx : SelectContext sha256} {nTargetValue : CAmount} (choices : SelectChoices sha256)

lemma selectWithChange_spec {vValue : List CInputCoin} {limit nTotalLower : CAmount} {best : List Bool × CAmount}
    (hvalues : ∀ coin ∈ vValue, 0 ≤ coin.value) (htotal : nTotalLower.toInt = totalValue vValue)
    (htarget : 0 < nTargetValue.toInt) (hlimit : limit.toInt = nTargetValue.toInt + MIN_CHANGE.toInt)
    (hbest : BestSubset vValue nTargetValue best) :
    ∃ best', selectWithChange nTargetValue choices vValue limit nTotalLower best = .ok best' ∧
      BestSubset vValue nTargetValue best' ∧
      (best'.2 = nTargetValue ∨ limit.toInt ≤ best'.2.toInt ∨ nTotalLower.toInt < limit.toInt) := by
  have hchange : 0 < MIN_CHANGE.toInt := by decide
  have hfits : FitsInt64 (totalValue vValue) := by
    rw [← htotal]
    exact fitsInt64_toInt nTotalLower
  rw [selectWithChange]
  split_ifs with hagain
  · obtain ⟨-, henough⟩ := hagain
    have hsearch : ∃ best', approximateBestSubset vValue limit (choices.randbool 1) nTotalLower 1000 = .ok best' ∧
        BestSubset vValue limit best' :=
      approximateBestSubset_spec hvalues hfits (choices.randbool 1) 1000 (by omega) htotal
        (le_iff_toInt_le.mp henough)
    obtain ⟨best', hrun, hbest'⟩ := hsearch
    have hreaches := hbest'.reaches
    exact ⟨best', hrun, ⟨hbest'.total, by omega⟩, Or.inr (Or.inl hreaches)⟩
  · refine ⟨best, rfl, hbest, ?_⟩
    by_cases hexact : best.2 = nTargetValue
    · exact Or.inl hexact
    · refine Or.inr (Or.inr (not_le.mp fun hle => hagain ⟨hexact, ?_⟩))
      exact le_iff_toInt_le.mpr hle

/-- The selection pays the target, or the coins do not reach it. -/
def SelectionSettled (nTargetValue : CAmount) (coins : List CInputCoin) (run : Except AmountFailure CoinSelection) : Prop :=
  ∃ sel, run = .ok sel ∧ ((sel.result = true ∧ PaysTarget nTargetValue coins sel) ∨
    (sel.result = false ∧ totalValue coins < nTargetValue.toInt))

section AfterScan

variable {coins : List CInputCoin} {s : CoinScan}
  (hvalues : ∀ coin ∈ coins, 0 ≤ coin.value) (hdistinct : (coins.map (·.outpoint)).Nodup)
include hvalues

lemma settled_single {coin : CInputCoin} (hmem : coin ∈ coins)
    (hvalue : coin.value = nTargetValue.toInt ∨ nTargetValue.toInt + MIN_CHANGE.toInt ≤ coin.value) :
    SelectionSettled nTargetValue coins (returnCoins [coin]) := by
  have hchange : 0 < MIN_CHANGE.toInt := by decide
  have htotal : totalValue [coin] = coin.value := (totalValue_cons coin).trans (add_zero _)
  have hchosen : ∀ c ∈ [coin], c ∈ coins := fun c hc => (mem_singleton.mp hc) ▸ hmem
  have henough : nTargetValue.toInt ≤ totalValue [coin] := by omega
  obtain ⟨sel, hrun, hresult, hpays⟩ := returnCoins_pays hchosen (nodup_singleton _) hvalues
    (htotal ▸ fitsInt64_toInt coin.txout.nValue) henough (by omega)
  exact ⟨sel, hrun, Or.inl ⟨hresult, hpays⟩⟩

variable (hinv : ScanInv (nTargetValue.toInt + MIN_CHANGE.toInt) coins s)
include hdistinct hinv

lemma settled_selectSubset (htarget : 0 < nTargetValue.toInt)
    (hlimit : FitsInt64 (nTargetValue.toInt + MIN_CHANGE.toInt))
    (henough : nTargetValue.toInt ≤ s.nTotalLower.toInt) :
    SelectionSettled nTargetValue coins (selectSubset nTargetValue choices s) := by
  obtain ⟨limit, hadd, hlimitEq⟩ := checkedAmount_of_fits hlimit
  have hadd' : addAmount nTargetValue MIN_CHANGE = .ok limit := hadd
  have hperm : ((choices.sort s.vValue).reverse).Perm s.vValue :=
    (reverse_perm _).trans (choices.sort_perm _)
  rw [selectSubset]
  generalize (choices.sort s.vValue).reverse = vValue at *
  -- The sorted coins are the lower ones.
  have hsublist : s.vValue.Sublist coins := by
    rw [hinv.lower]
    exact filter_sublist
  have hmem : ∀ c ∈ vValue, c ∈ coins := fun c hc => hsublist.subset (hperm.mem_iff.mp hc)
  have hlower : ∀ c ∈ vValue, 0 ≤ c.value := fun c hc => hvalues c (hmem c hc)
  have hvDistinct : (vValue.map (·.outpoint)).Nodup :=
    (hperm.map _).nodup_iff.mpr ((hsublist.map _).nodup hdistinct)
  have htotal : s.nTotalLower.toInt = totalValue vValue := by
    rw [hinv.total, totalValue_perm hperm]
  have hfits : FitsInt64 (totalValue vValue) := by
    rw [← htotal]
    exact fitsInt64_toInt s.nTotalLower
  obtain ⟨first, hfirst, hbest⟩ :=
    approximateBestSubset_spec hlower hfits (choices.randbool 0) 1000 htarget htotal henough
  obtain ⟨best, hbestRun, hbest, hgood⟩ :=
    selectWithChange_spec choices hlower htotal htarget hlimitEq hbest
  rw [hadd', ok_bind, hfirst, ok_bind, hbestRun, ok_bind]
  cases hcloser : closerCoin nTargetValue s limit best.2 with
  | some larger =>
    rw [closerCoin, Option.filter_eq_some_iff] at hcloser
    obtain ⟨hlargerMem, hlarger⟩ := hinv.larger larger hcloser.1
    exact settled_single hvalues hlargerMem (Or.inr hlarger)
  | none =>
    have hselected : totalValue (select vValue best.1) = best.2.toInt := by
      rw [hbest.total, selectedSum, select_map]
      rfl
    have hpart : (select vValue best.1).Sublist vValue := select_sublist
    obtain ⟨sel, hrun, hresult, hpays⟩ := returnCoins_pays (fun c hc => hmem c (hpart.subset hc))
      ((hpart.map _).nodup hvDistinct) hvalues (hselected ▸ fitsInt64_toInt best.2)
      (hbest.reaches.trans_eq hselected.symm) (by
        rw [hselected]
        obtain hexact | hmore | hfew := hgood
        · exact Or.inl (congrArg Int64.toInt hexact)
        · exact Or.inr (Or.inl (hlimitEq ▸ hmore))
        · cases hlarger : s.coinLowestLarger with
          | none =>
            have hsmall := hinv.noLarger hlarger
            have hall : lowerCoins (nTargetValue.toInt + MIN_CHANGE.toInt) coins = coins :=
              filter_eq_self.mpr fun c hc => decide_eq_true (hsmall c hc)
            have hvAll := hinv.lower.trans hall
            rw [hlimitEq, hinv.total, hvAll] at hfew
            exact Or.inr (Or.inr ⟨hsmall, hfew⟩)
          | some larger =>
            rw [closerCoin, hlarger, Option.filter_eq_none_iff] at hcloser
            have hnot := hcloser larger rfl
            by_cases hexact : best.2 = nTargetValue
            · exact Or.inl (congrArg Int64.toInt hexact)
            · refine Or.inr (Or.inl (hlimitEq ▸ not_lt.mp fun hless => hnot ?_))
              have hless' : best.2 < limit := lt_iff_toInt_lt.mpr hless
              simp [hexact, hless'])
    exact ⟨sel, hrun, Or.inl ⟨hresult, hpays⟩⟩

lemma settled_selectScanned (htarget : 0 < nTargetValue.toInt)
    (hlimit : FitsInt64 (nTargetValue.toInt + MIN_CHANGE.toInt)) :
    SelectionSettled nTargetValue coins (selectScanned nTargetValue choices s) := by
  rw [selectScanned]
  split_ifs with hexact hless
  · have hsublist : s.vValue.Sublist coins := by
      rw [hinv.lower]
      exact filter_sublist
    have htotal : totalValue s.vValue = nTargetValue.toInt := by
      rw [← hinv.total, hexact]
    obtain ⟨sel, hrun, hresult, hpays⟩ := returnCoins_pays (fun c hc => hsublist.subset hc)
      ((hsublist.map _).nodup hdistinct) hvalues (htotal ▸ fitsInt64_toInt nTargetValue) htotal.ge (Or.inl htotal)
    exact ⟨sel, hrun, Or.inl ⟨hresult, hpays⟩⟩
  · cases hlarger : s.coinLowestLarger with
    | none =>
      have hall : lowerCoins (nTargetValue.toInt + MIN_CHANGE.toInt) coins = coins :=
        filter_eq_self.mpr fun c hc => decide_eq_true (hinv.noLarger hlarger c hc)
      refine ⟨_, rfl, Or.inr ⟨rfl, ?_⟩⟩
      have hfew := lt_iff_toInt_lt.mp hless
      rw [hinv.total, hinv.lower, hall] at hfew
      exact hfew
    | some larger =>
      obtain ⟨hmem, hvalue⟩ := hinv.larger larger hlarger
      exact settled_single hvalues hmem (Or.inr hvalue)
  · exact settled_selectSubset choices hvalues hdistinct hinv htarget hlimit
      (not_lt.mp fun h => hless (lt_iff_toInt_lt.mpr h))

end AfterScan

/-- The selection succeeds exactly when the eligible outputs are worth the target, for every shuffle, every sort
and all random bits, and then pays for the target. -/
theorem selectCoinsMinConf_pays (ctx : SelectContext sha256) (choices : SelectChoices sha256)
    (nTargetValue : CAmount) (vCoins : List (COutput sha256))
    (hdistinct : (vCoins.map fun output => (CInputCoin.ofOutput output).outpoint).Nodup)
    (hvalues : ∀ output ∈ vCoins, 0 ≤ (CInputCoin.ofOutput output).value) (htarget : 0 < nTargetValue.toInt)
    (hlimit : FitsInt64 (nTargetValue.toInt + MIN_CHANGE.toInt))
    (hfits : FitsInt64 (totalValue
      (lowerCoins (nTargetValue.toInt + MIN_CHANGE.toInt) (eligibleCoins ctx vCoins)))) :
    ∃ sel, selectCoinsMinConf ctx nTargetValue choices vCoins = .ok sel ∧
      (sel.result = true ↔ nTargetValue.toInt ≤ totalValue (eligibleCoins ctx vCoins)) ∧
      (sel.result = true → PaysTarget nTargetValue (eligibleCoins ctx vCoins) sel) := by
  have hperm : (eligibleCoins ctx (choices.shuffle vCoins)).Perm (eligibleCoins ctx vCoins) :=
    ((choices.shuffle_perm vCoins).filter _).map _
  have hcoins : ∀ coin ∈ eligibleCoins ctx vCoins, 0 ≤ coin.value := by
    intro coin hcoin
    obtain ⟨output, houtput, rfl⟩ := mem_map.mp hcoin
    exact hvalues output (mem_of_mem_filter houtput)
  have heligible : ((eligibleCoins ctx vCoins).map (·.outpoint)).Nodup := by
    rw [eligibleCoins, map_map]
    exact (filter_sublist.map _).nodup hdistinct
  have hshuffled : ∀ coin ∈ eligibleCoins ctx (choices.shuffle vCoins), 0 ≤ coin.value :=
    fun coin hcoin => hcoins coin (hperm.mem_iff.mp hcoin)
  have hsettled : SelectionSettled nTargetValue (eligibleCoins ctx (choices.shuffle vCoins))
      (selectCoinsMinConf ctx nTargetValue choices vCoins) := by
    rw [selectCoinsMinConf]
    obtain ⟨coin, hmem, hvalue, hrun⟩ | ⟨s, hrun, hinv⟩ :=
      scanCoins_spec hlimit (ScanInv.start _) hshuffled ((totalValue_perm (hperm.filter _)).symm ▸ hfits)
    · rw [hrun, ok_bind]
      exact settled_single hshuffled hmem (Or.inl hvalue)
    · rw [hrun, ok_bind]
      exact settled_selectScanned choices hshuffled ((hperm.map _).nodup_iff.mpr heligible) hinv htarget hlimit
  obtain ⟨sel, hrun, ⟨hresult, hpays⟩ | ⟨hresult, hfew⟩⟩ := hsettled
  · have hpays' := hpays.perm hperm
    exact ⟨sel, hrun, iff_of_true hresult (hpays'.target_le hcoins), fun _ => hpays'⟩
  · rw [totalValue_perm hperm] at hfew
    rw [← Bool.not_eq_true] at hresult
    exact ⟨sel, hrun, iff_of_false hresult (not_le.mpr hfew), fun htrue => absurd htrue hresult⟩

end Selection

section Examples

def savingsTx : CTransaction cSHA256 where
  toCMutableTransaction :=
    ⟨BaseBlob.null 128, BaseBlob.null 128, BaseBlob.null 128, BaseBlob.null 128, 1,
      [⟨⟨BaseBlob.ofNat 32 7, 0⟩, [], SEQUENCE_FINAL, []⟩],
      [⟨3000000, [0x51]⟩, ⟨5000000, [0x51]⟩, ⟨90000000, [0x51]⟩], 0⟩
  hash := BaseBlob.ofNat 32 8710498707203676277464574799454991682467933852294323365921701258596152651489
  computeHash_eq := by decide +kernel

def savings : CWalletTx cSHA256 := ⟨savingsTx⟩

def savedOutput (i : Fin 3) : COutput cSHA256 := ⟨savings, i, 10, true⟩

def sixBlocks : SelectContext cSHA256 := ⟨CTxMemPool.empty, fun _ => false, 1, 6, 0⟩

def plainChoices : SelectChoices cSHA256 where
  shuffle vCoins := vCoins
  shuffle_perm _ := List.Perm.refl _
  sort vValue := vValue.insertionSort fun a b => a.txout.nValue ≤ b.txout.nValue
  sort_perm vValue := perm_insertionSort _ vValue
  sort_sorted vValue := by
    have : Std.Total fun a b : CInputCoin => a.txout.nValue ≤ b.txout.nValue := ⟨fun _ _ => Int64.le_total _ _⟩
    have : IsTrans CInputCoin fun a b => a.txout.nValue ≤ b.txout.nValue := ⟨fun a b c => Int64.le_trans⟩
    exact pairwise_insertionSort _ vValue
  randbool _ _ := false

theorem selectCoinsMinConf_pays_savings :
    ∃ sel, selectCoinsMinConf sixBlocks 7500000 plainChoices [savedOutput 0, savedOutput 1, savedOutput 2] = .ok sel ∧
      (sel.result = true ↔ (7500000 : CAmount).toInt ≤
        totalValue (eligibleCoins sixBlocks [savedOutput 0, savedOutput 1, savedOutput 2])) ∧
      (sel.result = true → PaysTarget 7500000
        (eligibleCoins sixBlocks [savedOutput 0, savedOutput 1, savedOutput 2]) sel) :=
  selectCoinsMinConf_pays sixBlocks plainChoices 7500000 [savedOutput 0, savedOutput 1, savedOutput 2]
    (by decide +kernel) (by decide +kernel) (by decide) (by decide) (by decide +kernel)

/-- The sum of a large target and the least change is not an amount. -/
theorem selectCoinsMinConf_overflows :
    ([savedOutput 0].map fun output => (CInputCoin.ofOutput output).outpoint).Nodup ∧
      (∀ output ∈ [savedOutput 0], 0 ≤ (CInputCoin.ofOutput output).value) ∧
      0 < (9223372036854775807 : CAmount).toInt ∧
      selectCoinsMinConf sixBlocks 9223372036854775807 plainChoices [savedOutput 0] = .error .signedOverflow := by
  refine ⟨by decide +kernel, by decide +kernel, by decide, ?_⟩
  rfl

end Examples

end MutableBitcoin
