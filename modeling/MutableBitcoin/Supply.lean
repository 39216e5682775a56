import MutableBitcoin.ConnectSafety
import MutableBitcoin.Lib.Ledger

/-!
# The supply of coins

The coins cache over a base view is abstracted to a ledger: at every outpoint a stack with the
unspent coin on top and, under an output that was added without looking at the base view, the coin
that comes back when the output is spent.
-/

namespace MutableBitcoin
open Lib Function List

noncomputable instance : Fintype COutPoint :=
  Fintype.ofInjective
    (fun o => ((⟨o.hash.value, o.hash.value_lt⟩ : Fin (256 ^ 32)), o.n.toFin)) (by
      rintro ⟨h, n⟩ ⟨h', n'⟩ heq
      simp only [Prod.mk.injEq, Fin.mk.injEq] at heq
      obtain rfl := BaseBlob.value_injective heq.1
      obtain rfl := UInt32.toFin_inj.mp heq.2
      rfl)

def Coin.value (coin : Coin) : ℤ := coin.out.nValue.toInt

/-- The value passes `MoneyRange`. -/
def Coin.InRange (coin : Coin) : Prop := moneyRange coin.out.nValue = true

namespace CCoinsViewCache

variable (view : CCoinsViewCache)

def ledger : Ledger COutPoint Coin := fun o =>
  match view.cacheCoins o with
  | none => (view.base o).toList
  | some entry =>
    if entry.coin.isSpent then []
    else if entry.fresh then entry.coin :: (view.base o).toList
    else [entry.coin]

noncomputable def total : ℤ := Ledger.visible Coin.value view.ledger

/-- The entries that connecting a block builds over a base view of unspent coins: copies of the
base view, spent coins, and created coins. -/
structure Built : Prop where
  base : ∀ o coin, view.base o = some coin → coin.InRange
  cached : ∀ o entry, view.cacheCoins o = some entry →
    (entry.coin.isSpent = false → entry.coin.InRange) ∧
    (entry.coin.isSpent = true → entry.dirty = true ∧ entry.fresh = false) ∧
    (entry.dirty = false → view.base o = some entry.coin ∧ entry.fresh = false)

end CCoinsViewCache

section Built

variable {view view' : CCoinsViewCache} {o : COutPoint}

lemma Coin.InRange.isSpent {coin : Coin} (h : coin.InRange) : coin.isSpent = false := by
  unfold Coin.InRange at h
  rw [moneyRange_iff] at h
  unfold Coin.isSpent CTxOut.isNull
  rw [beq_eq_false_iff_ne]
  intro heq
  rw [heq] at h
  exact absurd h.1 (by decide)

lemma built_empty {base : COutPoint → Option Coin} (h : ∀ o coin, base o = some coin → coin.InRange) :
    CCoinsViewCache.Built ⟨base, fun _ => none⟩ := ⟨h, by simp⟩

lemma CCoinsViewCache.Built.lookup (h : view.Built) {entry : CCoinsCacheEntry}
    (hl : view.lookup o = some entry) :
    view.ledger o = if entry.coin.isSpent then []
      else if entry.fresh then entry.coin :: (view.base o).toList else [entry.coin] := by
  cases hc : view.cacheCoins o with
  | some e =>
    rw [lookup_of_cached hc, Option.some.injEq] at hl
    subst hl
    simp [ledger, hc]
  | none =>
    rw [lookup_of_not_cached hc, Option.map_eq_some_iff] at hl
    obtain ⟨coin, hb, rfl⟩ := hl
    simp [ledger, hc, hb, (h.base o coin hb).isSpent]

lemma isSpent_empty : Coin.empty.isSpent = true := rfl

lemma CCoinsViewCache.Built.fetchCoin (h : view.Built) (o : COutPoint) :
    (view.fetchCoin o).Built ∧ (view.fetchCoin o).ledger = view.ledger := by
  cases hc : view.cacheCoins o with
  | some e =>
    have hview : view.fetchCoin o = view := by
      unfold CCoinsViewCache.fetchCoin
      rw [lookup_of_cached hc, ← hc, update_eq_self]
    rw [hview]
    exact ⟨h, rfl⟩
  | none =>
    have hl := lookup_of_not_cached hc
    constructor
    · refine ⟨h.base, ?_⟩
      intro o' entry he
      by_cases ho : o' = o
      · subst ho
        simp only [CCoinsViewCache.fetchCoin, update_self, hl, Option.map_eq_some_iff] at he
        obtain ⟨coin, hb, rfl⟩ := he
        have hr := h.base o' coin hb
        simp [hr, hr.isSpent, CCoinsViewCache.fetchCoin, hb]
      · simp only [CCoinsViewCache.fetchCoin, update_of_ne ho] at he
        exact h.cached o' entry he
    · funext o'
      by_cases ho : o' = o
      · subst ho
        cases hb : view.base o' with
        | none => simp [ledger, CCoinsViewCache.fetchCoin, hl, hb, hc]
        | some coin =>
          simp [ledger, CCoinsViewCache.fetchCoin, hl, hb, hc, (h.base o' coin hb).isSpent]
      · simp [ledger, CCoinsViewCache.fetchCoin, ho]

lemma CCoinsViewCache.Built.fetchAll (h : view.Built) (vin : List CTxIn) :
    (view.fetchAll vin).Built ∧ (view.fetchAll vin).ledger = view.ledger := by
  induction vin generalizing view with
  | nil => exact ⟨h, rfl⟩
  | cons txin vin ih =>
    obtain ⟨hb, hl⟩ := h.fetchCoin txin.prevout
    obtain ⟨hb', hl'⟩ := ih hb
    exact ⟨hb', hl'.trans hl⟩

lemma CCoinsViewCache.Built.value_accessCoin (h : view.Built) (hh : view.haveCoin o = true) :
    (view.accessCoin o).value = Ledger.top Coin.value view.ledger o := by
  unfold CCoinsViewCache.haveCoin at hh
  cases hl : view.lookup o with
  | none => simp [hl] at hh
  | some entry =>
    have hs : entry.coin.isSpent = false := by simpa [hl] using hh
    have hledger := h.lookup hl
    rw [hs] at hledger
    unfold Ledger.top CCoinsViewCache.accessCoin
    rw [hledger, hl]
    cases entry.fresh <;> simp

lemma CCoinsViewCache.Built.spendCoin (h : view.Built) {coin : Coin}
    (hs : view.spendCoin o = some (coin, view')) :
    view'.Built ∧ view'.ledger = view.ledger.pop o := by
  obtain ⟨entry, hl, -, rfl⟩ := spendCoin_eq_some hs
  have hledger := h.lookup hl
  have hfresh : entry.fresh = true → entry.coin.isSpent = false := by
    intro hf
    cases hc : view.cacheCoins o with
    | some e =>
      rw [lookup_of_cached hc, Option.some.injEq] at hl
      subst hl
      by_contra hspent
      have := ((h.cached o e hc).2.1 (by simpa using hspent)).2
      simp [hf] at this
    | none =>
      rw [lookup_of_not_cached hc, Option.map_eq_some_iff] at hl
      obtain ⟨coin, hb, rfl⟩ := hl
      exact (h.base o coin hb).isSpent
  constructor
  · refine ⟨h.base, ?_⟩
    intro o' e he
    by_cases ho : o' = o
    · subst ho
      simp only [update_self] at he
      split_ifs at he
      obtain rfl := Option.some.inj he
      simp [isSpent_empty]
    · simp only [update_of_ne ho] at he
      exact h.cached o' e he
  · funext o'
    by_cases ho : o' = o
    · subst ho
      unfold Ledger.pop
      rw [update_self, hledger]
      cases hf : entry.fresh with
      | true => simp [CCoinsViewCache.ledger, hfresh hf]
      | false => cases entry.coin.isSpent <;> simp [CCoinsViewCache.ledger, isSpent_empty]
    · simp [CCoinsViewCache.ledger, Ledger.pop, ho]

lemma CCoinsViewCache.Built.spendInputs (h : view.Built) {vin : List CTxIn} {undo : List Coin}
    (hs : view.spendInputs vin = .ok (undo, view')) :
    view'.Built ∧ view'.ledger = view.ledger.popAll (vin.map (·.prevout)) := by
  induction vin generalizing view undo with
  | nil =>
    obtain ⟨-, rfl⟩ := Prod.mk.inj (Except.ok.inj hs)
    exact ⟨h, rfl⟩
  | cons txin vin ih =>
    unfold CCoinsViewCache.spendInputs at hs
    cases hc : view.spendCoin txin.prevout with
    | none => simp [hc] at hs
    | some r =>
      obtain ⟨coin, view₁⟩ := r
      simp only [hc, bind_eq_ok_iff] at hs
      obtain ⟨⟨undo₁, view₂⟩, hrun, hret⟩ := hs
      obtain ⟨-, rfl⟩ := Prod.mk.inj (Except.ok.inj hret)
      obtain ⟨hb₁, hl₁⟩ := h.spendCoin hc
      obtain ⟨hb₂, hl₂⟩ := ih hb₁ hrun
      refine ⟨hb₂, ?_⟩
      rw [hl₂, hl₁]
      rfl

/-- No entry of the cache is `FRESH`. -/
def CCoinsViewCache.NoFresh (view : CCoinsViewCache) : Prop :=
  ∀ o entry, view.cacheCoins o = some entry → entry.fresh = false

/-- A created coin goes on top of the stack; with `possible_overwrite`, as for the outputs of a
coinbase, it replaces the stack. -/
def place (overwrite : Bool) (σ : Ledger COutPoint Coin) (o : COutPoint) (coin : Coin) :
    Ledger COutPoint Coin :=
  if overwrite then σ.put o coin else σ.push o coin

lemma built_update (h : view.Built) {coin : Coin} (hr : coin.InRange) (fresh : Bool) :
    CCoinsViewCache.Built { view with
      cacheCoins := Function.update view.cacheCoins o (some ⟨coin, true, fresh⟩) } := by
  refine ⟨h.base, ?_⟩
  intro o' entry he
  by_cases ho : o' = o
  · subst ho
    simp only [update_self, Option.some.injEq] at he
    subst he
    simp [hr, hr.isSpent]
  · simp only [update_of_ne ho] at he
    exact h.cached o' entry he

lemma CCoinsViewCache.Built.ledger_of_free (h : view.Built) (hfree : view.Free o) :
    view.ledger o =
      if ((view.cacheCoins o).getD ⟨Coin.empty, false, false⟩).dirty then [] else (view.base o).toList := by
  unfold CCoinsViewCache.ledger
  cases hc : view.cacheCoins o with
  | none => simp
  | some entry =>
    have hs := hfree entry hc
    simp [hs, ((h.cached o entry hc).2.1 hs).1]

lemma CCoinsViewCache.Built.addCoin (h : view.Built) {coin : Coin} {overwrite : Bool}
    (hr : coin.InRange) (hu : CScript.isUnspendable coin.out.scriptPubKey = false)
    (hfresh : overwrite = true → view.NoFresh)
    (ha : view.addCoin o coin overwrite = .ok view') :
    view'.Built ∧ view'.ledger = place overwrite view.ledger o coin ∧
      (overwrite = true → view'.NoFresh) := by
  unfold CCoinsViewCache.addCoin at ha
  simp only [hr.isSpent, hu, Bool.false_eq_true, if_false] at ha
  split_ifs at ha with hblocked
  obtain rfl := Except.ok.inj ha
  refine ⟨built_update h hr _, ?_, ?_⟩
  · funext o'
    by_cases ho : o' = o
    · subst ho
      cases overwrite with
      | true =>
        have hf : ((view.cacheCoins o').getD ⟨Coin.empty, false, false⟩).fresh = false := by
          cases hc : view.cacheCoins o' with
          | none => rfl
          | some entry => exact hfresh rfl o' entry hc
        simp [CCoinsViewCache.ledger, place, Ledger.put, hr.isSpent, hf]
      | false =>
        have hfree : view.Free o' := by
          rw [← isSpent_getD_iff]
          simpa using hblocked
        have hled := h.ledger_of_free hfree
        unfold place Ledger.push
        simp only [Bool.false_eq_true, if_false, update_self, hled]
        cases hc : view.cacheCoins o' with
        | none => simp [CCoinsViewCache.ledger, hr.isSpent]
        | some entry =>
          have hspent := (h.cached o' entry hc).2.1 (hfree entry hc)
          simp [CCoinsViewCache.ledger, hr.isSpent, hspent.1, hspent.2]
    · cases overwrite <;> simp [CCoinsViewCache.ledger, place, Ledger.put, Ledger.push, ho]
  · rintro rfl o' entry he
    by_cases ho : o' = o
    · subst ho
      simp only [update_self, Option.some.injEq] at he
      subst he
      cases hc : view.cacheCoins o' with
      | none => rfl
      | some e => simpa [hc] using hfresh rfl o' e hc
    · simp only [update_of_ne ho] at he
      exact hfresh rfl o' entry he

/-- The spendable outputs of a transaction, from output `i` on, are placed in the ledger. -/
def create (txid : Uint256) (fCoinbase : Bool) (nHeight : ℕ) :
    Ledger COutPoint Coin → ℕ → List CTxOut → Ledger COutPoint Coin
  | σ, _, [] => σ
  | σ, i, txout :: vout =>
    if CScript.isUnspendable txout.scriptPubKey then create txid fCoinbase nHeight σ (i + 1) vout
    else create txid fCoinbase nHeight
      (place fCoinbase σ ⟨txid, UInt32.ofNat i⟩ ⟨txout, fCoinbase, nHeight⟩) (i + 1) vout

lemma CCoinsViewCache.Built.addCoins (h : view.Built) {txid : Uint256} {fCoinbase : Bool}
    {nHeight i : ℕ} {vout : List CTxOut} (hr : ∀ txout ∈ vout, moneyRange txout.nValue = true)
    (hfresh : fCoinbase = true → view.NoFresh)
    (ha : view.addCoins txid fCoinbase nHeight i vout = .ok view') :
    view'.Built ∧ view'.ledger = create txid fCoinbase nHeight view.ledger i vout := by
  induction vout generalizing view i with
  | nil =>
    obtain rfl := Except.ok.inj ha
    exact ⟨h, rfl⟩
  | cons txout vout ih =>
    have hcoin : (⟨txout, fCoinbase, nHeight⟩ : Coin).InRange := hr txout (by simp)
    have hr' : ∀ t ∈ vout, moneyRange t.nValue = true := fun t ht => hr t (by simp [ht])
    unfold CCoinsViewCache.addCoins at ha
    unfold create
    cases hu : CScript.isUnspendable txout.scriptPubKey with
    | true =>
      rw [addCoin_of_unspendable hcoin.isSpent hu, ok_bind] at ha
      simpa using ih h hr' hfresh ha
    | false =>
      rw [bind_eq_ok_iff] at ha
      obtain ⟨view₁, hadd, ha⟩ := ha
      obtain ⟨hb, hl, hf⟩ := h.addCoin hcoin hu hfresh hadd
      simpa [hl] using ih hb hr' hf ha

end Built

section Step

variable {sha256 : Bytes → Uint256} {ctx : ConnectContext sha256} {st st' : ConnectState}
  {tx : CTransaction sha256}

/-- The sum that `GetValueOut` forms. -/
def nValueOut (vout : List CTxOut) : CAmount := (vout.map (·.nValue)).foldl (· + ·) 0

def valueOut (vout : List CTxOut) : ℤ := (vout.map (·.nValue.toInt)).sum

def spend (nHeight : ℕ) (σ : Ledger COutPoint Coin) (tx : CTransaction sha256) :
    Ledger COutPoint Coin :=
  create tx.hash false nHeight (σ.popAll (tx.vin.map (·.prevout))) 0 tx.vout

/-- The exact fee of a transaction: `GetValueIn` counts every listed outpoint. -/
def txFee (σ : Ledger COutPoint Coin) (tx : CTransaction sha256) : ℤ :=
  σ.counted Coin.value (tx.vin.map (·.prevout)) - valueOut tx.vout

lemma toInt_nValueOut {vout : List CTxOut} (h : SumsInRange 0 (vout.map (·.nValue))) :
    (nValueOut vout).toInt = valueOut vout := by
  unfold nValueOut
  rw [(h.toInt_foldl (by decide)).1, map_map]
  simp [valueOut, comp_def]

lemma CCoinsViewCache.Built.toInt_valueIn {view : CCoinsViewCache} (h : view.Built)
    {vin : List CTxIn} (hin : view.HasInputs vin)
    (hsums : SumsInRange 0 ((view.spentCoins vin).map (·.out.nValue))) :
    (view.valueIn vin).toInt = view.ledger.counted Coin.value (vin.map (·.prevout)) := by
  unfold CCoinsViewCache.valueIn
  rw [(hsums.toInt_foldl (by decide)).1]
  unfold CCoinsViewCache.spentCoins Ledger.counted
  simp only [map_map, Int64.toInt_zero, zero_add]
  congr 1
  apply map_congr_left
  intro txin htxin
  exact h.value_accessCoin (hin txin htxin)

lemma checkSpend_ok {coins : List Coin} {nSigOpsCost : ℕ} {v : CAmount} {u : Unit}
    (hout : getValueOut 0 tx.vout = .ok v) (h : checkSpend ctx tx coins nSigOpsCost = .ok u) :
    SumsInRange 0 (coins.map (·.out.nValue)) ∧
      moneyRange ((coins.map (·.out.nValue)).foldl (· + ·) 0 - v) = true := by
  simp only [checkSpend, checkValues, bind_eq_ok_iff, hout, failIf_eq_ok_iff, Except.ok.injEq,
    exists_eq_left', Bool.not_eq_false', Int64.zero_add] at h
  obtain ⟨-, -, -, -, -, -, -, ⟨w, hw, -, -, -, -, hfee⟩, -⟩ := h
  obtain ⟨hsums, rfl⟩ := checkInputCoins_eq_ok hw
  exact ⟨hsums, hfee⟩

/-- What a transaction that is accepted does to the ledger and the fees. -/
structure Accepted (ctx : ConnectContext sha256) (st : ConnectState) (tx : CTransaction sha256)
    (st' : ConnectState) : Prop where
  built : st'.view.Built
  ledger : st'.view.ledger = spend ctx.nHeight st.view.ledger tx
  sumsIn : SumsInRange 0 ((st.view.spentCoins tx.vin).map (·.out.nValue))
  nFees : st'.nFees = st.nFees + (st.view.valueIn tx.vin - nValueOut tx.vout)
  fee : (st.view.valueIn tx.vin - nValueOut tx.vout).toInt =
    txFee st.view.ledger tx
  fee_range : 0 ≤ txFee st.view.ledger tx ∧ txFee st.view.ledger tx ≤ 2100000000000000

lemma accepted_of_connectTransaction (hb : st.view.Built) (hcb : tx.isCoinBase = false)
    (hchk : checkTransaction tx.toCMutableTransaction false = .ok ())
    (h : connectTransaction ctx st tx = .ok st') : Accepted ctx st tx st' := by
  have hsumsOut := (checkTransaction_ok hchk).2.2
  have hout : getValueOut 0 tx.vout = .ok (nValueOut tx.vout) := getValueOut_eq_ok_iff.mpr ⟨hsumsOut, rfl⟩
  simp only [connectTransaction, bind_eq_ok_iff] at h
  obtain ⟨st₁, hcheck, ⟨undo, view⟩, hupdate, hret⟩ := h
  obtain rfl := Except.ok.inj hret
  by_cases hin : st.view.HasInputs tx.vin
  · rw [checkConnect_of_hasInputs ctx hcb hout hin, bind_eq_ok_iff] at hcheck
    obtain ⟨u, hspend, hst₁⟩ := hcheck
    obtain rfl := Except.ok.inj hst₁
    obtain ⟨hsumsIn, hfee⟩ := checkSpend_ok hout hspend
    simp only [updateCoins, hcb, Bool.false_eq_true, if_false, bind_eq_ok_iff] at hupdate
    obtain ⟨⟨undo', view₁⟩, hinputs, view₂, houtputs, hret⟩ := hupdate
    obtain ⟨-, rfl⟩ := Prod.mk.inj (Except.ok.inj hret)
    obtain ⟨hb₀, hl₀⟩ := hb.fetchAll tx.vin
    obtain ⟨hb₁, hl₁⟩ := hb₀.spendInputs hinputs
    obtain ⟨hb₂, hl₂⟩ := hb₁.addCoins
      (fun txout hmem => hsumsOut.mem _ (mem_map_of_mem hmem)) (by simp) houtputs
    have hin' := hb.toInt_valueIn hin hsumsIn
    have hout' := toInt_nValueOut hsumsOut
    have hrin := (hsumsIn.toInt_foldl (by decide)).2
    have hrout := (hsumsOut.toInt_foldl (by decide)).2
    have hfits : FitsInt64 ((st.view.valueIn tx.vin).toInt -
        (nValueOut tx.vout).toInt) := by
      rw [moneyRange_iff] at hrin hrout
      unfold CCoinsViewCache.valueIn nValueOut
      constructor <;> omega
    have hsub : (st.view.valueIn tx.vin - nValueOut tx.vout).toInt =
        txFee st.view.ledger tx := by
      rw [toInt_sub_of_fits hfits, hin', hout']
      rfl
    refine ⟨hb₂, ?_, hsumsIn, rfl, hsub, ?_⟩
    · rw [hl₂, hl₁, hl₀]
      rfl
    · rw [← hsub, ← moneyRange_iff]
      exact hfee
  · rw [checkConnect_of_not_hasInputs ctx hcb hin] at hcheck
    cases hcheck

end Step

end MutableBitcoin
