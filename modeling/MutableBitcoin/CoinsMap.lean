import MutableBitcoin.CoinsRefinement

/-!
# The map that one cache shows

A cache whose entries are coherent with its base view shows a map of unspent coins.
-/

namespace MutableBitcoin
open Lib Function Option List

namespace CCoinsViewCache

def coins (view : CCoinsViewCache) (o : COutPoint) : Option Coin :=
  (view.lookup o).bind (fun entry => entry.coin.unspent)

def slot (view : CCoinsViewCache) (o : COutPoint) : Option (Mark Coin) :=
  (view.cacheCoins o).map CCoinsCacheEntry.mark

def below (view : CCoinsViewCache) (o : COutPoint) : Option Coin := (view.base o).bind Coin.unspent

/-- Every entry is coherent with the base view. -/
def Coherent (view : CCoinsViewCache) : Prop := ∀ o, Fits (view.slot o) (view.below o)

variable {view : CCoinsViewCache} {o : COutPoint} {coin : Coin}

lemma coherent_of_empty (base : COutPoint → Option Coin) : Coherent ⟨base, fun _ => none⟩ :=
  fun _ => fits_none

lemma coins_eq_shown (view : CCoinsViewCache) (o : COutPoint) :
    view.coins o = shown (view.slot o) (view.below o) := by
  unfold coins slot below
  cases hcache : view.cacheCoins o with
  | some entry =>
    rw [lookup_of_cached hcache]
    rfl
  | none =>
    rw [lookup_of_not_cached hcache]
    cases view.base o with
    | none => rfl
    | some tmp => rfl

lemma haveCoin_eq (view : CCoinsViewCache) (o : COutPoint) : view.haveCoin o = (view.coins o).isSome := by
  unfold haveCoin coins
  cases view.lookup o with
  | none => rfl
  | some entry => exact (isSome_unspent entry.coin).symm

lemma coins_eq_none_iff : view.coins o = none ↔ view.haveCoin o = false := by
  rw [haveCoin_eq, isSome_eq_false_iff, isNone_iff_eq_none]

lemma isSpent_of_coins (h : view.coins o = some coin) : coin.isSpent = false := by
  obtain ⟨entry, -, hcoin⟩ := bind_eq_some_iff.mp h
  unfold Coin.unspent at hcoin
  split_ifs at hcoin with hspent
  obtain rfl := Option.some.inj hcoin
  simpa using hspent

section Update

def set (view : CCoinsViewCache) (o : COutPoint) (entry : Option CCoinsCacheEntry) : CCoinsViewCache :=
  { view with cacheCoins := Function.update view.cacheCoins o entry }

lemma slot_set (view : CCoinsViewCache) (o : COutPoint) (entry : Option CCoinsCacheEntry) :
    (view.set o entry).slot = Function.update view.slot o (entry.map CCoinsCacheEntry.mark) := by
  funext o'
  show Option.map _ (Function.update view.cacheCoins o entry o') = _
  by_cases ho : o' = o
  · subst ho
    rw [update_self, update_self]
  · rw [update_of_ne ho, update_of_ne ho]
    rfl

lemma Coherent.set (h : view.Coherent) {entry : Option CCoinsCacheEntry}
    (hentry : Fits (entry.map CCoinsCacheEntry.mark) (view.below o)) : (view.set o entry).Coherent := by
  intro o'
  show Fits ((view.set o entry).slot o') (view.below o')
  rw [slot_set]
  by_cases ho : o' = o
  · subst ho
    rwa [update_self]
  · rw [update_of_ne ho]
    exact h o'

lemma coins_set {entry : Option CCoinsCacheEntry} {found : Option Coin}
    (hfound : shown (entry.map CCoinsCacheEntry.mark) (view.below o) = found) :
    (view.set o entry).coins = Function.update view.coins o found := by
  funext o'
  have hbelow : (view.set o entry).below = view.below := rfl
  rw [coins_eq_shown, slot_set, hbelow]
  by_cases ho : o' = o
  · subst ho
    rw [update_self, update_self, hfound]
  · rw [update_of_ne ho, update_of_ne ho, coins_eq_shown]

end Update

section Fetch

lemma coins_fetchCoin (view : CCoinsViewCache) (o : COutPoint) : (view.fetchCoin o).coins = view.coins := by
  funext o'
  unfold coins
  rw [lookup_fetchCoin]

lemma Coherent.lookup (h : view.Coherent) (o : COutPoint) :
    Fits ((view.lookup o).map CCoinsCacheEntry.mark) (view.below o) := by
  cases hcache : view.cacheCoins o with
  | some entry =>
    rw [lookup_of_cached hcache, ← hcache]
    exact h o
  | none =>
    rw [lookup_of_not_cached hcache]
    unfold below
    cases view.base o with
    | none => exact fits_none
    | some tmp => exact fits_some.mpr (coherent_read unspent_of_isSpent)

lemma Coherent.fetchCoin (h : view.Coherent) (o : COutPoint) : (view.fetchCoin o).Coherent :=
  Coherent.set h (h.lookup o)

end Fetch

lemma spendCoin_of_coins (h : view.Coherent) (hcoin : view.coins o = some coin) :
    ∃ view', view.spendCoin o = some (coin, view') ∧ view'.Coherent ∧
      view'.coins = Function.update view.coins o none := by
  obtain ⟨entry, hlookup, hunspent⟩ := bind_eq_some_iff.mp hcoin
  obtain rfl : entry.coin = coin := by
    unfold Coin.unspent at hunspent
    split_ifs at hunspent
    exact Option.some.inj hunspent
  have hmark : entry.mark.Coherent (view.below o) := by
    have hfits := h.lookup o
    rw [hlookup] at hfits
    exact fits_some.mp hfits
  have hspend : view.spendCoin o = some (entry.coin,
      view.set o (if entry.fresh then none else some ⟨Coin.empty, true, entry.fresh⟩)) := by
    unfold spendCoin
    rw [hlookup]
    rfl
  refine ⟨_, hspend, ?_⟩
  cases hfresh : entry.fresh with
  | true =>
    rw [if_pos rfl]
    exact ⟨h.set fits_none, coins_set (hmark.fresh hfresh)⟩
  | false =>
    rw [if_neg Bool.false_ne_true]
    refine ⟨h.set (fits_some.mpr (coherent_dirty ?_)), coins_set unspent_empty⟩
    rintro ⟨⟩

lemma addCoin_of_coins (h : view.Coherent) (hcoin : view.coins o = none) {possible_overwrite : Bool}
    (hspent : coin.isSpent = false) (hspendable : CScript.isUnspendable coin.out.scriptPubKey = false) :
    ∃ view', view.addCoin o coin possible_overwrite = .ok view' ∧ view'.Coherent ∧
      view'.coins = Function.update view.coins o (some coin) := by
  have hfree : ((view.cacheCoins o).getD ⟨Coin.empty, false, false⟩).coin.isSpent = true := by
    cases hcache : view.cacheCoins o with
    | none => rfl
    | some entry =>
      unfold coins at hcoin
      rw [lookup_of_cached hcache] at hcoin
      exact unspent_eq_none_iff.mp hcoin
  unfold addCoin
  rw [hspent, if_neg Bool.false_ne_true, hspendable, if_neg Bool.false_ne_true]
  dsimp only
  rw [hfree, Bool.not_true, Bool.and_false, if_neg Bool.false_ne_true]
  refine ⟨_, rfl, h.set (fits_some.mpr (coherent_write (h o) ?_)), coins_set (unspent_of_not_isSpent hspent)⟩
  intro hfresh
  rw [Bool.or_eq_true, Bool.and_eq_true, Bool.not_eq_true', Bool.not_eq_true'] at hfresh
  unfold slot
  cases hcache : view.cacheCoins o with
  | none =>
    refine Or.inr ⟨?_, by rintro _ ⟨⟩⟩
    rw [coins_eq_shown] at hcoin
    unfold slot at hcoin
    rwa [hcache] at hcoin
  | some entry =>
    rw [hcache] at hfresh
    rcases hfresh with hfresh | ⟨-, hclean⟩
    · exact Or.inl ⟨entry.mark, rfl, hfresh⟩
    · refine Or.inr ⟨?_, ?_⟩
      · rw [coins_eq_shown] at hcoin
        unfold slot at hcoin
        rwa [hcache] at hcoin
      · rintro _ ⟨⟩
        exact hclean

end CCoinsViewCache

end MutableBitcoin

/-!
## What `SpendCoin` returns

`SpendCoin` returns true wherever it finds an entry, also for a coin that is gone.
-/

namespace MutableBitcoin
open Function Option List

namespace CoinsStack

variable (st : CoinsStack) (o : COutPoint)

/-- `SpendCoin` returns true exactly where `HaveCoin` does, then moves out the coin that `GetCoin`
returns, and leaves the coins that are shown where it returns false. -/
structure SpendTruth : Prop where
  returns : (st.spendCoin o).2.isSome = (st.haveCoin o).2
  moveout : (st.haveCoin o).2 = true → (st.spendCoin o).2 = (getCoin st.base st.layers o).2
  unchanged : (st.spendCoin o).2 = none →
    visible (st.spendCoin o).1.base (st.spendCoin o).1.layers = visible st.base st.layers

/-- The top cache holds a spent coin for the outpoint, or it is the only cache, holds nothing and the
base view answers with a spent coin. -/
def SpentEntry : Prop :=
  match st.layers with
  | [] => False
  | layer :: layers =>
    match layer.cacheCoins.lookup o with
    | some entry => entry.coin.isSpent = true
    | none => layers = [] ∧ ∃ coin, st.base o = some coin ∧ coin.isSpent = true

end CoinsStack

section Spend

variable {st : CoinsStack} {m : COutPoint → Option Coin} {o : COutPoint}

lemma spentEntry_iff (hvalid : ValidLayers st.base st.layers) (hne : st.layers ≠ []) :
    st.SpentEntry o ↔
      ∃ entry, (fetchCoin st.base st.layers o).2 = some entry ∧ entry.coin.isSpent = true := by
  obtain ⟨layer, layers, hlayers⟩ := exists_cons_of_ne_nil hne
  unfold CoinsStack.SpentEntry
  rw [hlayers] at hvalid ⊢
  simp only [fetchCoin, CoinsLayer.fetch]
  cases hlookup : layer.cacheCoins.lookup o with
  | some entry => simp
  | none =>
    cases layers with
    | nil =>
      simp only [getCoin, true_and]
      cases st.base o with
      | none => simp
      | some coin => simp
    | cons below layers =>
      have hbelow := getCoin_eq hvalid.2 (cons_ne_nil below layers) o
      have hspec := (getCoin_spec hvalid.2 o).2
      cases hget : getCoin st.base (below :: layers) o with
      | mk result answer =>
        rw [hget] at hbelow hspec
        cases answer with
        | none => simp
        | some coin =>
          have hunspent : coin.unspent = some coin := hspec.trans hbelow.symm
          have hcoin : coin.isSpent = false := by
            by_contra hspent
            rw [unspent_of_isSpent (by simpa using hspent)] at hunspent
            cases hunspent
          simp [hcoin]

/-- In every reachable state of a stack of caches `SpendCoin` tells the truth about an outpoint exactly
if no spent coin stands for it in the top cache, or in the base view under a single cache. -/
theorem spendTruth_iff (st : CoinsStack) (m : COutPoint → Option Coin) (hrun : StackRun st m)
    (hne : st.layers ≠ []) (o : COutPoint) : st.SpendTruth o ↔ ¬st.SpentEntry o := by
  obtain ⟨hvalid, -⟩ := hrun.valid
  rw [spentEntry_iff hvalid hne]
  have hget := getCoin_eq hvalid hne o
  have hspend := spendCoin_spec hvalid hne o
  have hfound : Found st.base st.layers (fetchCoin st.base st.layers o).1 o (fetchCoin st.base st.layers o).2 := by
    obtain ⟨layer, layers, hlayers⟩ := exists_cons_of_ne_nil hne
    rw [hlayers] at hvalid ⊢
    exact fetchCoin_spec hvalid o
  cases hfetch : fetchCoin st.base st.layers o with
  | mk result found =>
    rw [hfetch] at hfound
    have hhave : (st.haveCoin o).2 = found.elim false (fun entry => !entry.coin.isSpent) := by
      rw [CoinsStack.haveCoin, hfetch]
    cases found with
    | none =>
      have hreturn : (st.spendCoin o).2 = none := by
        unfold CoinsStack.spendCoin
        rw [hfetch]
        cases result <;> rfl
      refine iff_of_true ⟨?_, ?_, fun _ => ?_⟩ (by simp)
      · rw [hreturn, hhave]
        rfl
      · rw [hhave]
        exact fun h => absurd h Bool.false_ne_true
      · have hnone : visible st.base st.layers o = none := hfound.answer.symm
        rw [hspend.1, hspend.2.2, ← hnone, update_eq_self]
    | some entry =>
      obtain ⟨top, rest, rfl, -⟩ := hfound.held entry rfl
      have hreturn : (st.spendCoin o).2 = some entry.coin := by
        unfold CoinsStack.spendCoin
        rw [hfetch]
      have hanswer : entry.coin.unspent = visible st.base st.layers o := hfound.answer
      cases hspent : entry.coin.isSpent with
      | true =>
        refine iff_of_false (fun htruth => ?_) (fun h => h ⟨entry, rfl, hspent⟩)
        have hreturns := htruth.returns
        rw [hreturn, hhave] at hreturns
        simp [hspent] at hreturns
      | false =>
        refine iff_of_true ⟨?_, fun _ => ?_, fun h => ?_⟩ (by simp [hspent])
        · rw [hreturn, hhave]
          simp [hspent]
        · rw [hreturn, hget, ← hanswer, unspent_of_not_isSpent hspent]
        · rw [hreturn] at h
          cases h

def spentStack : CoinsStack :=
  (CoinsStack.mk (Function.update (fun _ => none) fundingOutpoint (some fundingCoin))
    [CoinsLayer.empty]).spendCoin fundingOutpoint |>.1

lemma stackRun_spentStack : ∃ m, StackRun spentStack m :=
  ⟨_, .call (c := .spendCoin fundingOutpoint) (.start _ 1) (cons_ne_nil _ _) rfl⟩

theorem spendTruth_iff_spentStack :
    spentStack.SpendTruth fundingOutpoint ↔ ¬spentStack.SpentEntry fundingOutpoint := by
  obtain ⟨m, hrun⟩ := stackRun_spentStack
  exact spendTruth_iff spentStack m hrun (by decide) fundingOutpoint

/-- The coin cannot be spent again, but a second `SpendCoin` returns true and an empty coin. -/
theorem spendCoin_spentStack :
    (∃ m, StackRun spentStack m) ∧ (spentStack.haveCoin fundingOutpoint).2 = false ∧
      (spentStack.spendCoin fundingOutpoint).2 = some Coin.empty :=
  ⟨stackRun_spentStack, by decide, by decide⟩

end Spend

end MutableBitcoin
