import MutableBitcoin.ConnectStep

/-!
# When connecting a block ends the process

`HaveInputs` looks at every input before any of them is spent, so a transaction that lists an
outpoint twice passes, and `assert(is_spent)` may fail.
-/

namespace MutableBitcoin
open Lib List CCoinsViewCache Nat

/-- A failure is a rejection. -/
def NoCrash {α : Type} (x : Except Failure α) : Prop := ∀ f, x = .error f → f.isCrash = false

section NoCrash

variable {α β : Type} {x : Except Failure α}

lemma noCrash_ok (a : α) : NoCrash (.ok a : Except Failure α) := by
  intro f h
  cases h

lemma noCrash_bind {f : α → Except Failure β} (hx : NoCrash x)
    (hf : ∀ a, x = .ok a → NoCrash (f a)) : NoCrash (x >>= f) := by
  intro e he
  rcases bind_eq_error_iff.mp he with h | ⟨a, ha, h⟩
  · exact hx e h
  · exact hf a ha e h

lemma noCrash_failIf (c : Bool) (n : ℕ) (r : String) (k : Bool) : NoCrash (failIf c n r k) := by
  unfold failIf
  cases c with
  | true =>
    intro f h
    cases h
    rfl
  | false => exact noCrash_ok ()

lemma noCrash_assertThat {c : Bool} (h : c = true) : NoCrash (assertThat c) := by
  subst h
  exact noCrash_ok ()

lemma noCrash_checkInputCoins {nSpendHeight : ℕ} {acc : CAmount} {coins : List Coin}
    (h : coins.all (fun coin => !coin.isSpent) = true) :
    NoCrash (checkInputCoins nSpendHeight acc coins) := by
  induction coins generalizing acc with
  | nil => exact noCrash_ok acc
  | cons coin coins ih =>
    simp only [all_cons, Bool.and_eq_true] at h
    unfold checkInputCoins
    refine noCrash_bind (noCrash_assertThat h.1) (fun _ _ => ?_)
    refine noCrash_bind (noCrash_failIf _ _ _ _) (fun _ _ => ?_)
    exact noCrash_bind (noCrash_failIf _ _ _ _) (fun _ _ => ih h.2)

end NoCrash

section Checks

variable {sha256 : Bytes → Uint256} {ctx : ConnectContext sha256} {st : ConnectState}
  {tx : CTransaction sha256}

lemma noCrash_checkSpend {nValueOut : CAmount} {nSigOpsCost : ℕ}
    (hout : getValueOut 0 tx.vout = .ok nValueOut) (h : st.view.HasInputs tx.vin)
    (hflags : ctx.sequenceLocks tx ((st.view.spentCoins tx.vin).map (·.nHeight)) = true →
      ctx.flags.Consistent) :
    NoCrash (checkSpend ctx tx (st.view.spentCoins tx.vin) nSigOpsCost) := by
  unfold checkSpend
  refine noCrash_bind (noCrash_failIf _ _ _ _) (fun _ hlock => ?_)
  rw [failIf_eq_ok_iff, Bool.not_eq_false'] at hlock
  have hcons : (tx.vin.isEmpty || !ctx.flags.witness || ctx.flags.p2sh) = true := by
    have := hflags hlock
    unfold ScriptFlags.Consistent at this
    cases hw : ctx.flags.witness <;> simp_all
  refine noCrash_bind (noCrash_assertThat hcons) (fun _ _ => ?_)
  refine noCrash_bind (noCrash_failIf _ _ _ _) (fun _ _ => ?_)
  rw [hout, ok_bind]
  refine noCrash_bind ?_ (fun _ _ => ?_)
  · unfold checkValues
    refine noCrash_bind (noCrash_checkInputCoins (all_unspent h)) (fun _ _ => ?_)
    rw [hout, ok_bind]
    refine noCrash_bind (noCrash_failIf _ _ _ _) (fun _ _ => ?_)
    exact noCrash_bind (noCrash_failIf _ _ _ _) (fun _ _ => noCrash_failIf _ _ _ _)
  · intro f hf
    cases hs : ctx.checkScripts tx (st.view.spentCoins tx.vin) with
    | none => simp [hs, pure, Except.pure] at hf
    | some r =>
      simp only [hs] at hf
      cases hf
      rfl

end Checks

section Spend

variable {view view' : CCoinsViewCache} {o : COutPoint} {coin : Coin}

lemma spendCoin_eq_some (h : view.spendCoin o = some (coin, view')) :
    ∃ entry, view.lookup o = some entry ∧ coin = entry.coin ∧ view' = { view with
      cacheCoins := Function.update view.cacheCoins o
        (if entry.fresh then none else some ⟨Coin.empty, true, false⟩) } := by
  unfold spendCoin at h
  cases hl : view.lookup o with
  | none => simp [hl] at h
  | some entry =>
    simp only [hl, Option.some.injEq, Prod.mk.injEq] at h
    obtain ⟨rfl, rfl⟩ := h
    refine ⟨entry, rfl, rfl, ?_⟩
    cases entry.fresh <;> rfl

lemma lookup_spendCoin_of_ne (h : view.spendCoin o = some (coin, view')) {o' : COutPoint}
    (hne : o' ≠ o) : view'.lookup o' = view.lookup o' := by
  obtain ⟨entry, -, -, rfl⟩ := spendCoin_eq_some h
  simp [CCoinsViewCache.lookup, hne]

lemma base_spendCoin (h : view.spendCoin o = some (coin, view')) : view'.base = view.base := by
  obtain ⟨entry, -, -, rfl⟩ := spendCoin_eq_some h
  rfl

lemma lookup_spendCoin_self (h : view.spendCoin o = some (coin, view')) :
    view'.lookup o ≠ none ↔
      ∀ entry, view.lookup o = some entry → entry.fresh = true → view.base o ≠ none := by
  obtain ⟨entry, hl, -, rfl⟩ := spendCoin_eq_some h
  rw [hl]
  cases hf : entry.fresh with
  | true => simp [CCoinsViewCache.lookup, hf]
  | false => simp [CCoinsViewCache.lookup, hf]

lemma base_of_lookup_spendCoin_fresh (h : view.spendCoin o = some (coin, view'))
    {entry : CCoinsCacheEntry} (hl : view'.lookup o = some entry) (hf : entry.fresh = true) :
    view.base o ≠ none := by
  obtain ⟨entry', -, -, rfl⟩ := spendCoin_eq_some h
  cases hf' : entry'.fresh with
  | true =>
    intro hb
    simp [CCoinsViewCache.lookup, hf', hb] at hl
  | false =>
    simp [CCoinsViewCache.lookup, hf'] at hl
    subst hl
    simp at hf

lemma spendInputs_ok_iff (view : CCoinsViewCache) (vin : List CTxIn) :
    (∃ r, view.spendInputs vin = .ok r) ↔ ∀ o ∈ vin.map (·.prevout), view.lookup o ≠ none ∧
      (2 ≤ (vin.map (·.prevout)).count o → ∀ entry, view.lookup o = some entry →
        entry.fresh = true → view.base o ≠ none) := by
  induction vin generalizing view with
  | nil => simp [spendInputs]
  | cons txin vin ih =>
    unfold spendInputs
    cases hs : view.spendCoin txin.prevout with
    | none =>
      have hl : view.lookup txin.prevout = none := by
        unfold spendCoin at hs
        split at hs
        · assumption
        · simp at hs
      simp [hl]
    | some r =>
      obtain ⟨coin, view'⟩ := r
      have hl : view.lookup txin.prevout ≠ none := by
        obtain ⟨entry, h, -⟩ := spendCoin_eq_some hs
        simp [h]
      have hrest : (∃ r, (view'.spendInputs vin).map (fun p => (coin :: p.1, p.2)) = .ok r) ↔
          ∃ r, view'.spendInputs vin = .ok r := by
        cases view'.spendInputs vin <;> simp [Except.map]
      refine hrest.trans ?_
      rw [ih, base_spendCoin hs, map_cons]
      constructor
      · intro h o ho
        by_cases hp : o = txin.prevout
        · subst hp
          refine ⟨hl, fun hcount => ?_⟩
          have hmem : txin.prevout ∈ vin.map (·.prevout) := by
            rw [count_cons_self] at hcount
            exact count_pos_iff.mp (by omega)
          exact (lookup_spendCoin_self hs).mp (h _ hmem).1
        · have hmem : o ∈ vin.map (·.prevout) := (mem_cons.mp ho).resolve_left hp
          have ho' := h o hmem
          rwa [lookup_spendCoin_of_ne hs hp, ← count_cons_of_ne (Ne.symm hp)] at ho'
      · intro h o ho
        have hcons := h o (mem_cons_of_mem _ ho)
        by_cases hp : o = txin.prevout
        · subst hp
          have hcount : 2 ≤ (txin.prevout :: vin.map (·.prevout)).count txin.prevout := by
            rw [count_cons_self]
            have := count_pos_iff.mpr ho
            omega
          exact ⟨(lookup_spendCoin_self hs).mpr (hcons.2 hcount),
            fun _ entry hentry hf => base_of_lookup_spendCoin_fresh hs hentry hf⟩
        · rwa [lookup_spendCoin_of_ne hs hp, ← count_cons_of_ne (Ne.symm hp)]

lemma cacheCoins_spendInputs {vin : List CTxIn} {view : CCoinsViewCache} {undo : List Coin}
    (h : view.spendInputs vin = .ok (undo, view')) (o : COutPoint) :
    (o ∈ vin.map (·.prevout) → ∀ entry, view'.cacheCoins o = some entry → entry.coin.isSpent = true) ∧
    (o ∉ vin.map (·.prevout) → view'.cacheCoins o = view.cacheCoins o) := by
  induction vin generalizing view undo with
  | nil =>
    simp only [spendInputs, Except.ok.injEq, Prod.mk.injEq] at h
    simp [h.2]
  | cons txin vin ih =>
    unfold spendInputs at h
    cases hs : view.spendCoin txin.prevout with
    | none => simp [hs] at h
    | some r =>
      obtain ⟨coin, view₁⟩ := r
      simp only [hs, bind_eq_ok_iff] at h
      obtain ⟨⟨undo₁, view₂⟩, hrun, hret⟩ := h
      obtain ⟨-, rfl⟩ := Prod.mk.inj (Except.ok.inj hret)
      obtain ⟨hin, hout⟩ := ih hrun
      obtain ⟨entry, -, -, hview⟩ := spendCoin_eq_some hs
      have hcache : view₁.cacheCoins = Function.update view.cacheCoins txin.prevout
        (if entry.fresh then none else some ⟨Coin.empty, true, false⟩) := by rw [hview]
      by_cases hp : o = txin.prevout
      · subst hp
        refine ⟨fun _ e he => ?_, fun hno => absurd (mem_map_of_mem mem_cons_self) hno⟩
        by_cases hmem : txin.prevout ∈ vin.map (·.prevout)
        · exact hin hmem e he
        · rw [hout hmem, hcache, Function.update_self] at he
          split_ifs at he
          obtain rfl := Option.some.inj he
          rfl
      · constructor
        · intro hmem
          exact hin (by simpa [hp] using hmem)
        · intro hno
          rw [hout (by simp [hp] at hno; simpa using hno), hcache, Function.update_of_ne hp]

end Spend

section Add

variable {view view' : CCoinsViewCache} {o : COutPoint} {coin : Coin}

/-- The cache has no unspent coin there. -/
def CCoinsViewCache.Free (view : CCoinsViewCache) (o : COutPoint) : Prop :=
  ∀ entry, view.cacheCoins o = some entry → entry.coin.isSpent = true

lemma isSpent_getD_iff :
    ((view.cacheCoins o).getD ⟨Coin.empty, false, false⟩).coin.isSpent = true ↔ view.Free o := by
  unfold CCoinsViewCache.Free
  cases view.cacheCoins o with
  | none => simp [Coin.isSpent, Coin.empty, CTxOut.isNull, CTxOut.null]
  | some entry => simp

lemma addCoin_of_unspendable (hspent : coin.isSpent = false)
    (hu : CScript.isUnspendable coin.out.scriptPubKey = true) (overwrite : Bool) :
    view.addCoin o coin overwrite = .ok view := by
  unfold addCoin
  simp only [hspent, hu, Bool.false_eq_true, if_false, if_true]

lemma addCoin_of_spendable (hspent : coin.isSpent = false)
    (hu : CScript.isUnspendable coin.out.scriptPubKey = false) {overwrite : Bool}
    (h : overwrite = true ∨ view.Free o) :
    ∃ fresh, view.addCoin o coin overwrite = .ok { view with
      cacheCoins := Function.update view.cacheCoins o (some ⟨coin, true, fresh⟩) } := by
  have hc : (!overwrite &&
      !((view.cacheCoins o).getD ⟨Coin.empty, false, false⟩).coin.isSpent) = false := by
    rcases h with rfl | h
    · rfl
    · rw [isSpent_getD_iff.mpr h]
      simp
  unfold addCoin
  simp only [hspent, hu, hc, Bool.false_eq_true, if_false]
  exact ⟨_, rfl⟩

lemma addCoin_of_blocked (hspent : coin.isSpent = false)
    (hu : CScript.isUnspendable coin.out.scriptPubKey = false) (h : ¬view.Free o) :
    view.addCoin o coin false = .error (.crash .logicError) := by
  have hc : ((view.cacheCoins o).getD ⟨Coin.empty, false, false⟩).coin.isSpent = false := by
    rw [← Bool.not_eq_true, isSpent_getD_iff]
    exact h
  unfold addCoin
  simp only [hspent, hu, hc, Bool.not_false, Bool.false_eq_true, if_false, Bool.and_self, if_true]

lemma outpoint_ne (txid : Uint256) {i j : ℕ} (hi : i < 2 ^ 32) (hj : j < 2 ^ 32) (h : i ≠ j) :
    (⟨txid, UInt32.ofNat i⟩ : COutPoint) ≠ ⟨txid, UInt32.ofNat j⟩ := by
  intro heq
  have hn := congrArg (fun o : COutPoint => o.n.toNat) heq
  simp only [UInt32.toNat_ofNat'] at hn
  rw [mod_eq_of_lt hi, mod_eq_of_lt hj] at hn
  exact h hn

lemma forall_getElem?_cons {α : Type} {a : α} {l : List α} {P : ℕ → α → Prop} :
    (∀ j x, (a :: l)[j]? = some x → P j x) ↔ P 0 a ∧ ∀ j x, l[j]? = some x → P (j + 1) x := by
  constructor
  · intro h
    exact ⟨h 0 a rfl, fun j x hx => h (j + 1) x (by simpa using hx)⟩
  · rintro ⟨h₀, h⟩ j x hx
    cases j with
    | zero =>
      obtain rfl : a = x := by simpa using hx
      exact h₀
    | succ j => exact h j x (by simpa using hx)

lemma addCoins_ok_iff (view : CCoinsViewCache) (txid : Uint256) (fCoinbase : Bool) (nHeight : ℕ)
    {vout : List CTxOut} {i : ℕ} (hlen : i + vout.length ≤ 2 ^ 32)
    (hnull : ∀ txout ∈ vout, txout.isNull = false) :
    (∃ view', view.addCoins txid fCoinbase nHeight i vout = .ok view') ↔
      fCoinbase = true ∨ ∀ j txout, vout[j]? = some txout →
        CScript.isUnspendable txout.scriptPubKey = false →
          view.Free ⟨txid, UInt32.ofNat (i + j)⟩ := by
  induction vout generalizing view i with
  | nil => simp [addCoins]
  | cons txout vout ih =>
    have hspent : (⟨txout, fCoinbase, nHeight⟩ : Coin).isSpent = false := hnull txout (by simp)
    have hlen' : i + 1 + vout.length ≤ 2 ^ 32 := by
      rw [length_cons] at hlen
      omega
    have hnull' : ∀ t ∈ vout, t.isNull = false := fun t ht => hnull t (by simp [ht])
    unfold addCoins
    cases hu : CScript.isUnspendable txout.scriptPubKey with
    | true =>
      rw [addCoin_of_unspendable hspent hu, ok_bind, ih _ hlen' hnull']
      simp only [forall_getElem?_cons, hu, Bool.true_eq_false, false_imp_iff, true_and]
      simp only [add_assoc, add_comm 1]
    | false =>
      by_cases hfree : fCoinbase = true ∨ view.Free ⟨txid, UInt32.ofNat i⟩
      · obtain ⟨fresh, hadd⟩ := addCoin_of_spendable hspent hu hfree
        rw [hadd, ok_bind, ih _ hlen' hnull']
        simp only [forall_getElem?_cons, hu, true_imp_iff, add_zero]
        have hrest : ∀ j t, vout[j]? = some t →
            (CCoinsViewCache.Free { view with
              cacheCoins := Function.update view.cacheCoins ⟨txid, UInt32.ofNat i⟩
                (some ⟨⟨txout, fCoinbase, nHeight⟩, true, fresh⟩) }
              ⟨txid, UInt32.ofNat (i + 1 + j)⟩ ↔ view.Free ⟨txid, UInt32.ofNat (i + (j + 1))⟩) := by
          intro j t ht
          obtain ⟨hj, -⟩ := List.getElem?_eq_some_iff.mp ht
          have hne := outpoint_ne txid (show i + (j + 1) < 2 ^ 32 by omega)
            (show i < 2 ^ 32 by omega) (by omega)
          unfold CCoinsViewCache.Free
          rw [show i + 1 + j = i + (j + 1) by omega]
          simp only [Function.update_of_ne hne]
        constructor
        · rintro (hcb | h)
          · exact Or.inl hcb
          · rcases hfree with hcb | hfree
            · exact Or.inl hcb
            · exact Or.inr ⟨hfree, fun j t ht hsp => (hrest j t ht).mp (h j t ht hsp)⟩
        · rintro (hcb | h)
          · exact Or.inl hcb
          · exact Or.inr fun j t ht hsp => (hrest j t ht).mpr (h.2 j t ht hsp)
      · rw [not_or, Bool.not_eq_true] at hfree
        obtain ⟨rfl, hfree⟩ := hfree
        rw [addCoin_of_blocked hspent hu hfree]
        simp only [forall_getElem?_cons, hu, true_imp_iff, add_zero, hfree, false_and,
          Bool.false_eq_true, or_false, iff_false]
        rintro ⟨v, hv⟩
        cases hv

end Add

section Step

variable {sha256 : Bytes → Uint256} {ctx : ConnectContext sha256} {st : ConnectState}
  {tx : CTransaction sha256}

lemma length_vout_le (tx : CMutableTransaction) (s : SerStream) :
    tx.vout.length ≤ tx.getSerializeSize s := by
  have hout : tx.vout.length ≤ (tx.vout.flatMap CTxOut.serialize).length := by
    induction tx.vout with
    | nil => simp
    | cons txout vout ih =>
      simp only [flatMap_cons, length_append, length_cons, CTxOut.serialize,
        serializeInt64, length_leBytes]
      omega
  unfold CMutableTransaction.getSerializeSize CMutableTransaction.serialize serializeVector
  simp only [length_append]
  omega

lemma length_vout_of_check (hchk : checkTransaction tx.toCMutableTransaction false = .ok ()) :
    0 + tx.vout.length ≤ 2 ^ 32 := by
  have hsize := (checkTransaction_ok hchk).2.1
  have := length_vout_le tx.toCMutableTransaction strippedStream
  unfold WITNESS_SCALE_FACTOR MAX_BLOCK_WEIGHT at hsize
  omega

lemma isNull_of_sumsInRange {acc : CAmount} {vout : List CTxOut}
    (h : SumsInRange acc (vout.map (·.nValue))) : ∀ txout ∈ vout, txout.isNull = false := by
  intro txout hmem
  have hr := h.mem _ (mem_map_of_mem hmem)
  rw [moneyRange_iff] at hr
  unfold CTxOut.isNull
  rw [beq_eq_false_iff_ne]
  intro heq
  rw [heq] at hr
  exact absurd hr.1 (by decide)

/-- What `UpdateCoins` needs of the cache before the transaction: a repeated outpoint keeps its
entry after the first spend, and no output replaces an unspent entry. -/
structure UpdateSafe (view : CCoinsViewCache) (tx : CTransaction sha256) : Prop where
  repeated : ∀ o ∈ tx.vin.map (·.prevout), 2 ≤ (tx.vin.map (·.prevout)).count o →
    ∀ entry, view.lookup o = some entry → entry.fresh = true → view.base o ≠ none
  free : ∀ j txout, tx.vout[j]? = some txout → CScript.isUnspendable txout.scriptPubKey = false →
    ⟨tx.hash, UInt32.ofNat j⟩ ∈ tx.vin.map (·.prevout) ∨ view.Free ⟨tx.hash, UInt32.ofNat j⟩

lemma updateCoins_ok_iff {view : CCoinsViewCache} (nHeight : ℕ) (hcb : tx.isCoinBase = false)
    (hchk : checkTransaction tx.toCMutableTransaction false = .ok ()) (h : view.HasInputs tx.vin) :
    (∃ r, updateCoins (view.fetchAll tx.vin) tx nHeight = .ok r) ↔ UpdateSafe view tx := by
  have hnull := isNull_of_sumsInRange (checkTransaction_ok hchk).2.2
  have hlen := length_vout_of_check hchk
  have hlookup : ∀ o ∈ tx.vin.map (·.prevout), view.lookup o ≠ none := by
    intro o ho
    obtain ⟨txin, htxin, rfl⟩ := mem_map.mp ho
    have := h txin htxin
    unfold haveCoin at this
    cases hl : view.lookup txin.prevout with
    | none => simp [hl] at this
    | some entry => simp
  -- the entries that `AddCoins` sees are those left by the spends
  have hfree : ∀ {undo : List Coin} {v : CCoinsViewCache},
      (view.fetchAll tx.vin).spendInputs tx.vin = .ok (undo, v) → ∀ o,
        v.Free o ↔ o ∈ tx.vin.map (·.prevout) ∨ view.Free o := by
    intro undo v hrun o
    obtain ⟨hin, hout⟩ := cacheCoins_spendInputs hrun o
    by_cases ho : o ∈ tx.vin.map (·.prevout)
    · simp only [ho, true_or, iff_true]
      exact hin ho
    · unfold CCoinsViewCache.Free
      rw [hout ho, cacheCoins_fetchAll, if_neg ho]
      simp [ho]
  have hspend := spendInputs_ok_iff (view.fetchAll tx.vin) tx.vin
  simp only [lookup_fetchAll, base_fetchAll] at hspend
  unfold updateCoins
  simp only [hcb, Bool.false_eq_true, if_false]
  constructor
  · rintro ⟨r, hr⟩
    simp only [bind_eq_ok_iff] at hr
    obtain ⟨⟨undo, v⟩, hrun, v', hadd, -⟩ := hr
    refine ⟨fun o ho => (hspend.mp ⟨_, hrun⟩ o ho).2, ?_⟩
    intro j txout hj hu
    have := (addCoins_ok_iff v tx.hash false nHeight hlen hnull).mp ⟨v', hadd⟩
    simp only [Bool.false_eq_true, false_or, zero_add] at this
    exact (hfree hrun _).mp (this j txout hj hu)
  · intro hsafe
    obtain ⟨⟨undo, v⟩, hrun⟩ := hspend.mpr (fun o ho => ⟨hlookup o ho, hsafe.repeated o ho⟩)
    have hadd := (addCoins_ok_iff v tx.hash false nHeight hlen hnull).mpr (Or.inr (fun j txout hj hu => by
        rw [zero_add]
        exact (hfree hrun _).mpr (hsafe.free j txout hj hu)))
    obtain ⟨v', hadd⟩ := hadd
    exact ⟨(undo, v'), by simp only [hrun, ok_bind, hadd]; rfl⟩

lemma isCrash_of_addCoins {txid : Uint256} {fCoinbase : Bool} {nHeight i : ℕ} {vout : List CTxOut}
    {view : CCoinsViewCache} {f : Failure}
    (h : view.addCoins txid fCoinbase nHeight i vout = .error f) : f.isCrash = true := by
  induction vout generalizing view i with
  | nil => cases h
  | cons txout vout ih =>
    unfold addCoins at h
    rcases bind_eq_error_iff.mp h with h | ⟨v, -, h⟩
    · simp only [addCoin] at h
      split_ifs at h <;> cases h <;> rfl
    · exact ih h

lemma isCrash_of_spendInputs {vin : List CTxIn} {view : CCoinsViewCache} {f : Failure}
    (h : view.spendInputs vin = .error f) : f.isCrash = true := by
  induction vin generalizing view with
  | nil => cases h
  | cons txin vin ih =>
    unfold spendInputs at h
    cases hs : view.spendCoin txin.prevout with
    | none =>
      simp only [hs] at h
      cases h
      rfl
    | some r =>
      simp only [hs] at h
      rcases bind_eq_error_iff.mp h with h | ⟨_, -, h⟩
      · exact ih h
      · cases h

lemma isCrash_of_updateCoins {view : CCoinsViewCache} {nHeight : ℕ} {f : Failure}
    (h : updateCoins view tx nHeight = .error f) : f.isCrash = true := by
  unfold updateCoins at h
  rcases bind_eq_error_iff.mp h with h | ⟨r, -, h⟩
  · split_ifs at h
    exact isCrash_of_spendInputs h
  · rcases bind_eq_error_iff.mp h with h | ⟨_, -, h⟩
    · exact isCrash_of_addCoins h
    · cases h

lemma updateCoins_coinbase (view : CCoinsViewCache) (nHeight : ℕ) (hcb : tx.isCoinBase = true)
    (hchk : checkTransaction tx.toCMutableTransaction false = .ok ()) :
    ∃ r, updateCoins view tx nHeight = .ok r := by
  have hnull := isNull_of_sumsInRange (checkTransaction_ok hchk).2.2
  obtain ⟨v, hv⟩ := (addCoins_ok_iff view tx.hash true nHeight (length_vout_of_check hchk)
    hnull).mpr (Or.inl rfl)
  refine ⟨([], v), ?_⟩
  unfold updateCoins
  simp only [hcb, if_true, ok_bind, hv]
  rfl

/-- The condition on a step: if the flags are used they are consistent, and if `UpdateCoins` is
reached its needs are met. -/
def StepSafe (ctx : ConnectContext sha256) (st : ConnectState) (tx : CTransaction sha256) : Prop :=
  tx.isCoinBase = true ∨
    ((st.view.HasInputs tx.vin →
        ctx.sequenceLocks tx ((st.view.spentCoins tx.vin).map (·.nHeight)) = true →
        ctx.flags.Consistent) ∧
      ((∃ st', checkConnect ctx st tx = .ok st') → UpdateSafe st.view tx))

lemma exists_getValueOut (hchk : checkTransaction tx.toCMutableTransaction false = .ok ()) :
    ∃ nValueOut, getValueOut 0 tx.vout = .ok nValueOut :=
  ⟨_, getValueOut_eq_ok_iff.mpr ⟨(checkTransaction_ok hchk).2.2, rfl⟩⟩

lemma view_of_checkConnect {st st' : ConnectState} {nValueOut : CAmount} (hcb : tx.isCoinBase = false)
    (hout : getValueOut 0 tx.vout = .ok nValueOut) (hin : st.view.HasInputs tx.vin)
    (h : checkConnect ctx st tx = .ok st') : st'.view = st.view.fetchAll tx.vin := by
  rw [checkConnect_of_hasInputs ctx hcb hout hin, unit_bind_eq_ok_iff] at h
  rw [← Except.ok.inj h.2]
  rfl

lemma noCrash_connectTransaction_coinbase (st : ConnectState) (hcb : tx.isCoinBase = true)
    (hchk : checkTransaction tx.toCMutableTransaction false = .ok ()) :
    NoCrash (connectTransaction ctx st tx) := by
  unfold connectTransaction
  rw [checkConnect_coinbase hcb, bind_assoc_ok]
  refine noCrash_bind (noCrash_failIf _ _ _ _) (fun _ _ => ?_)
  rw [ok_bind]
  obtain ⟨r, hr⟩ := updateCoins_coinbase st.view ctx.nHeight hcb hchk
  simp only [hr, ok_bind]
  exact noCrash_ok _

lemma consistent_of_noCrash {st : ConnectState} (hcb : tx.isCoinBase = false)
    (hchk : checkTransaction tx.toCMutableTransaction false = .ok ()) (hin : st.view.HasInputs tx.vin)
    (hlock : ctx.sequenceLocks tx ((st.view.spentCoins tx.vin).map (·.nHeight)) = true)
    (h : NoCrash (connectTransaction ctx st tx)) : ctx.flags.Consistent := by
  obtain ⟨nValueOut, hout⟩ := exists_getValueOut hchk
  have hvin := (checkTransaction_ok hchk).1
  by_contra hflags
  have hassert : (tx.vin.isEmpty || !ctx.flags.witness || ctx.flags.p2sh) = false := by
    unfold ScriptFlags.Consistent at hflags
    rw [Classical.not_imp, Bool.not_eq_true] at hflags
    simp [hvin, hflags.1, hflags.2]
  have hcrash : connectTransaction ctx st tx = .error (.crash .assertion) := by
    unfold connectTransaction
    rw [checkConnect_of_hasInputs ctx hcb hout hin, checkSpend]
    simp only [hlock, hassert]
    rfl
  exact absurd (h _ hcrash) (by simp [Failure.isCrash])

lemma updateSafe_of_noCrash {st st' : ConnectState} (hcb : tx.isCoinBase = false)
    (hchk : checkTransaction tx.toCMutableTransaction false = .ok ()) (hin : st.view.HasInputs tx.vin)
    (hst' : checkConnect ctx st tx = .ok st') (h : NoCrash (connectTransaction ctx st tx)) :
    UpdateSafe st.view tx := by
  obtain ⟨nValueOut, hout⟩ := exists_getValueOut hchk
  rw [← updateCoins_ok_iff ctx.nHeight hcb hchk hin]
  cases hu : updateCoins (st.view.fetchAll tx.vin) tx ctx.nHeight with
  | ok r => exact ⟨r, rfl⟩
  | error f =>
    have hcrash : connectTransaction ctx st tx = .error f := by
      unfold connectTransaction
      rw [hst', ok_bind, view_of_checkConnect hcb hout hin hst', hu]
      rfl
    exact absurd (h f hcrash) (by simp [isCrash_of_updateCoins hu])

lemma noCrash_connectTransaction_of_safe {st : ConnectState} (hcb : tx.isCoinBase = false)
    (hchk : checkTransaction tx.toCMutableTransaction false = .ok ()) (hin : st.view.HasInputs tx.vin)
    (hflags : ctx.sequenceLocks tx ((st.view.spentCoins tx.vin).map (·.nHeight)) = true →
      ctx.flags.Consistent)
    (hsafe : (∃ st', checkConnect ctx st tx = .ok st') → UpdateSafe st.view tx) :
    NoCrash (connectTransaction ctx st tx) := by
  obtain ⟨nValueOut, hout⟩ := exists_getValueOut hchk
  unfold connectTransaction
  refine noCrash_bind ?_ (fun st' hst' => ?_)
  · rw [checkConnect_of_hasInputs ctx hcb hout hin]
    exact noCrash_bind (noCrash_checkSpend hout hin hflags) (fun _ _ => noCrash_ok _)
  · obtain ⟨r, hr⟩ := (updateCoins_ok_iff ctx.nHeight hcb hchk hin).mpr (hsafe ⟨st', hst'⟩)
    rw [view_of_checkConnect hcb hout hin hst', hr]
    exact noCrash_ok _

/-- One step ends the process exactly if it is not safe. -/
theorem noCrash_connectTransaction_iff (st : ConnectState)
    (hchk : checkTransaction tx.toCMutableTransaction false = .ok ()) :
    NoCrash (connectTransaction ctx st tx) ↔ StepSafe ctx st tx := by
  by_cases hcb : tx.isCoinBase = true
  · exact iff_of_true (noCrash_connectTransaction_coinbase st hcb hchk) (Or.inl hcb)
  · rw [Bool.not_eq_true] at hcb
    by_cases hin : st.view.HasInputs tx.vin
    · constructor
      · intro h
        refine Or.inr ⟨fun _ hlock => consistent_of_noCrash hcb hchk hin hlock h, ?_⟩
        rintro ⟨st', hst'⟩
        exact updateSafe_of_noCrash hcb hchk hin hst' h
      · rintro (hcb' | ⟨hflags, hsafe⟩)
        · simp [hcb] at hcb'
        · exact noCrash_connectTransaction_of_safe hcb hchk hin (hflags hin) hsafe
    · have hcheck := checkConnect_of_not_hasInputs ctx hcb hin
      refine ⟨fun _ => Or.inr ⟨fun h => absurd h hin, ?_⟩, fun _ => ?_⟩
      · rintro ⟨st', hst'⟩
        rw [hcheck] at hst'
        cases hst'
      · unfold connectTransaction
        rw [hcheck]
        intro f hf
        cases hf
        rfl

def EveryStepSafe (ctx : ConnectContext sha256) : ConnectState → List (CTransaction sha256) → Prop
  | _, [] => True
  | st, tx :: vtx => StepSafe ctx st tx ∧
      ∀ st', connectTransaction ctx st tx = .ok st' → EveryStepSafe ctx st' vtx

lemma noCrash_connectTransactions_iff {vtx : List (CTransaction sha256)}
    (hchk : ∀ tx ∈ vtx, checkTransaction tx.toCMutableTransaction false = .ok ())
    (st : ConnectState) :
    NoCrash (connectTransactions ctx st vtx) ↔ EveryStepSafe ctx st vtx := by
  unfold connectTransactions
  induction vtx generalizing st with
  | nil => exact ⟨fun _ => trivial, fun _ => noCrash_ok st⟩
  | cons tx vtx ih =>
    have hstep : NoCrash (connectTransaction ctx st tx) ↔ StepSafe ctx st tx :=
      noCrash_connectTransaction_iff st (hchk tx (by simp))
    have ih' := fun st' => ih (fun t ht => hchk t (by simp [ht])) st'
    rw [foldlM_cons]
    constructor
    · intro h
      refine ⟨hstep.mp fun f hf => h f (by rw [hf]; rfl), fun st' hst' => (ih' st').mp ?_⟩
      intro f hf
      exact h f (by rw [hst']; exact hf)
    · rintro ⟨hsafe, hrest⟩
      exact noCrash_bind (hstep.mpr hsafe) (fun st' hst' => (ih' st').mpr (hrest st' hst'))

/-- Whatever the cache and the base view hold, connecting a block that `CheckBlock` accepts
rejects or finishes exactly if every step that is reached is safe. -/
theorem connectBlock_noCrash_iff (ctx : ConnectContext sha256) (params : ConsensusParams)
    (view : CCoinsViewCache) (block block' : CBlock sha256) (fCheckPOW fCheckMerkleRoot : Bool)
    (hf : block.fChecked = false)
    (hchk : checkBlock block params fCheckPOW fCheckMerkleRoot = .ok block') :
    NoCrash (connectBlock ctx params view block) ↔
      EveryStepSafe ctx ⟨view, 0, 0, []⟩ block.vtx := by
  have hchecked := checked_of_checkBlock hf hchk
  rw [← noCrash_connectTransactions_iff hchecked.transactions]
  unfold connectBlock
  constructor
  · intro h f hf'
    exact h f (by rw [hf']; rfl)
  · intro h
    refine noCrash_bind h (fun st _ => ?_)
    obtain ⟨cb, rest, hvtx, -⟩ := hchecked.coinbase
    obtain ⟨nValueOut, hout⟩ := exists_getValueOut (hchecked.transactions cb (by simp [hvtx]))
    simp only [hvtx, head?_cons, Option.map_some, Option.getD_some, hout, ok_bind]
    exact noCrash_bind (noCrash_failIf _ _ _ _) (fun _ _ => noCrash_ok _)

end Step

section DoubleSpend

def regtest : ConsensusParams where
  powLimit := BaseBlob.ofNat 32 0x7fffffffffffffffffffffffffffffffffffffffffffffffffffffffffffffff
  nSubsidyHalvingInterval := 150
  BIP34Height := 100000000

def lenientContext (nHeight : ℕ) : ConnectContext cSHA256 :=
  ⟨nHeight, ⟨true, true⟩, fun _ _ => true, fun _ _ => none⟩

def plainTransaction (vin : List CTxIn) (vout : List CTxOut) : CMutableTransaction :=
  ⟨BaseBlob.null 128, BaseBlob.null 128, BaseBlob.null 128, BaseBlob.null 128, 1, vin, vout, 0⟩

def coinbaseTx : CTransaction cSHA256 where
  toCMutableTransaction := plainTransaction
    [⟨COutPoint.null, [0x51, 0x51], SEQUENCE_FINAL, []⟩] [⟨5000000000, [0x51]⟩]
  hash := BaseBlob.ofNat 32 0xbcd5ffee478c036750feec8398cc1bf9d3979569005cc79a6b4bbc3711f1c172
  computeHash_eq := by decide +kernel

def fundingOutpoint : COutPoint := ⟨⟨List.replicate 32 1, rfl⟩, 0⟩

def fundingCoin : Coin := ⟨⟨5000000000, [0x51]⟩, false, 0⟩

def doubleSpendTx : CTransaction cSHA256 where
  toCMutableTransaction := plainTransaction
    [⟨fundingOutpoint, [], SEQUENCE_FINAL, []⟩, ⟨fundingOutpoint, [], SEQUENCE_FINAL, []⟩]
    [⟨10000000000, [0x51]⟩]
  hash := BaseBlob.ofNat 32 0x71778565de7cf873e133f922f350c8b4d702095d4e5889bb8233909cd52c2bad
  computeHash_eq := by decide +kernel

def doubleSpendBlock : CBlock cSHA256 where
  nVersion := 4
  hashPrevBlock := BaseBlob.null 32
  hashMerkleRoot := BaseBlob.ofNat 32 0xed2a25515b914d008bff87a626c7eef37752f9d74ea04b7dfa0578d4ede78076
  nTime := 1296688602
  nBits := 0x207fffff
  nNonce := 0
  hashUChainVersion := BaseBlob.null 32
  vtx := [coinbaseTx, doubleSpendTx]
  fChecked := false

lemma checkBlock_doubleSpendBlock :
    ∃ block', checkBlock doubleSpendBlock regtest true true = .ok block' := by
  have h : (checkBlock doubleSpendBlock regtest true true).isOk = true := by decide +kernel
  cases hc : checkBlock doubleSpendBlock regtest true true with
  | ok b => exact ⟨b, rfl⟩
  | error e => simp [hc, Except.isOk, Except.toBool] at h

def freshView : CCoinsViewCache where
  base := fun _ => none
  cacheCoins := Function.update (fun _ => none) fundingOutpoint (some ⟨fundingCoin, true, true⟩)

theorem connectBlock_noCrash_iff_doubleSpendBlock :
    ∃ block', checkBlock doubleSpendBlock regtest true true = .ok block' ∧
      (NoCrash (connectBlock (lenientContext 1) regtest freshView doubleSpendBlock) ↔
        EveryStepSafe (lenientContext 1) ⟨freshView, 0, 0, []⟩ doubleSpendBlock.vtx) := by
  obtain ⟨block', h⟩ := checkBlock_doubleSpendBlock
  exact ⟨block', h, connectBlock_noCrash_iff (lenientContext 1) regtest freshView doubleSpendBlock
    block' true true rfl h⟩

def Failure.isAssertion : Failure → Bool
  | .crash .assertion => true
  | _ => false

theorem connectBlock_doubleSpendBlock_crashes :
    (∃ block', checkBlock doubleSpendBlock regtest true true = .ok block') ∧
    ∃ f, connectBlock (lenientContext 1) regtest freshView doubleSpendBlock = .error f ∧
      f.isAssertion = true := by
  refine ⟨checkBlock_doubleSpendBlock, ?_⟩
  have h : (match connectBlock (lenientContext 1) regtest freshView doubleSpendBlock with
    | .error f => f.isAssertion
    | .ok _ => false) = true := by decide +kernel
  cases hc : connectBlock (lenientContext 1) regtest freshView doubleSpendBlock with
  | ok st => simp [hc] at h
  | error f =>
    simp only [hc] at h
    exact ⟨f, rfl, h⟩

end DoubleSpend

end MutableBitcoin
