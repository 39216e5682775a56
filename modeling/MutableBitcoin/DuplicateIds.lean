import MutableBitcoin.ConnectSafety

/-!
# Transactions of a block with the same id

The check of BIP30 looks at the view before the block, and two transactions of one block may have
the same chameleon id.
-/

namespace MutableBitcoin
open Lib List CCoinsViewCache

variable {sha256 : Bytes → Uint256}

def blockOutpoints (vtx : List (CTransaction sha256)) : List COutPoint :=
  vtx.flatMap (fun tx => (List.range tx.vout.length).map (fun o => ⟨tx.hash, UInt32.ofNat o⟩))

/-- `HaveCoin` for one outpoint after another, up to the first that is unspent. -/
def checkBIP30 : CCoinsViewCache → List COutPoint → Except Failure CCoinsViewCache
  | view, [] => .ok view
  | view, o :: outpoints =>
    if view.haveCoin o then .error (.reject ⟨100, "bad-txns-BIP30", false⟩)
    else checkBIP30 (view.fetchCoin o) outpoints

/-- `HaveInputs` and `UpdateCoins` for one transaction. -/
def applyTransaction (nHeight : ℕ) (view : CCoinsViewCache) (tx : CTransaction sha256) :
    Except Failure CCoinsViewCache := do
  let (view, fHave) := if tx.isCoinBase then (view, true) else view.haveInputs tx.vin
  failIf (!fHave) 100 "bad-txns-inputs-missingorspent" false
  let (_, view) ← updateCoins view tx nHeight
  return view

def applyTransactions (nHeight : ℕ) (view : CCoinsViewCache) (vtx : List (CTransaction sha256)) :
    Except Failure CCoinsViewCache :=
  vtx.foldlM (applyTransaction nHeight) view

section BIP30

variable {view view' : CCoinsViewCache}

lemma haveCoin_eq_false_of_checkBIP30 {outpoints : List COutPoint}
    (h : checkBIP30 view outpoints = .ok view') :
    ∀ o ∈ outpoints, view'.haveCoin o = false := by
  have hlookup : (∀ o ∈ outpoints, view.haveCoin o = false) ∧ ∀ o, view'.haveCoin o = view.haveCoin o := by
    induction outpoints generalizing view with
    | nil =>
      obtain rfl := Except.ok.inj h
      exact ⟨by simp, fun _ => rfl⟩
    | cons o outpoints ih =>
      unfold checkBIP30 at h
      split_ifs at h with hhave
      obtain ⟨hnot, hsame⟩ := ih h
      simp only [haveCoin_fetchCoin] at hnot hsame
      exact ⟨forall_mem_cons.mpr ⟨Bool.not_eq_true _ ▸ hhave, hnot⟩, hsame⟩
  intro o ho
  rw [hlookup.2, hlookup.1 o ho]

lemma free_of_haveCoin {o : COutPoint} (h : view.haveCoin o = false) : view.Free o := by
  intro entry hentry
  unfold haveCoin at h
  rw [lookup_of_cached hentry] at h
  simpa using h

end BIP30

section Frame

variable {view view' : CCoinsViewCache} {o : COutPoint}

lemma addCoin_of_ne {o' : COutPoint} {coin : Coin} {overwrite : Bool} (hne : o ≠ o')
    (h : view.addCoin o' coin overwrite = .ok view') : view'.haveCoin o = view.haveCoin o := by
  unfold addCoin at h
  dsimp only at h
  split_ifs at h
  · obtain rfl := Except.ok.inj h
    rfl
  · obtain rfl := Except.ok.inj h
    simp only [CCoinsViewCache.haveCoin, CCoinsViewCache.lookup, Function.update_of_ne hne]

lemma haveCoin_addCoins {txid : Uint256} {fCoinbase : Bool} {nHeight i : ℕ} {vout : List CTxOut}
    (h : view.addCoins txid fCoinbase nHeight i vout = .ok view')
    (hne : ∀ j txout, vout[j]? = some txout → CScript.isUnspendable txout.scriptPubKey = false →
      o ≠ ⟨txid, UInt32.ofNat (i + j)⟩) : view'.haveCoin o = view.haveCoin o := by
  induction vout generalizing view i with
  | nil =>
    obtain rfl := Except.ok.inj h
    rfl
  | cons txout vout ih =>
    obtain ⟨view₁, hadd, hrest⟩ := bind_eq_ok_iff.mp h
    rw [forall_getElem?_cons] at hne
    have hstep : view₁.haveCoin o = view.haveCoin o := by
      by_cases hu : CScript.isUnspendable txout.scriptPubKey = true
      · unfold addCoin at hadd
        split_ifs at hadd
        obtain rfl := Except.ok.inj hadd
        rfl
      · exact addCoin_of_ne (hne.1 (by simpa using hu)) hadd
    rw [ih hrest (fun j t ht hu => by rw [Nat.add_assoc, Nat.add_comm 1]; exact hne.2 j t ht hu), hstep]

lemma haveCoin_spendInputs {vin : List CTxIn} {undo : List Coin} (h : view.spendInputs vin = .ok (undo, view'))
    (ho : o ∉ vin.map (·.prevout)) : view'.haveCoin o = view.haveCoin o := by
  induction vin generalizing view undo with
  | nil =>
    obtain ⟨-, rfl⟩ := Prod.mk.inj (Except.ok.inj h)
    rfl
  | cons txin vin ih =>
    rw [map_cons, mem_cons, not_or] at ho
    unfold spendInputs at h
    cases hs : view.spendCoin txin.prevout with
    | none => simp [hs] at h
    | some r =>
      obtain ⟨coin, view₁⟩ := r
      simp only [hs, bind_eq_ok_iff] at h
      obtain ⟨⟨undo₁, view₂⟩, hrun, hret⟩ := h
      obtain ⟨-, rfl⟩ := Prod.mk.inj (Except.ok.inj hret)
      rw [ih hrun ho.2]
      unfold haveCoin
      rw [lookup_spendCoin_of_ne hs ho.1]

end Frame

section Step

variable {view view' : CCoinsViewCache} {tx : CTransaction sha256} {nHeight : ℕ} {o : COutPoint}

/-- The transaction has a spendable output there. -/
def Creates (tx : CTransaction sha256) (o : COutPoint) : Prop :=
  ∃ j txout, tx.vout[j]? = some txout ∧ CScript.isUnspendable txout.scriptPubKey = false ∧
    o = ⟨tx.hash, UInt32.ofNat j⟩

lemma applyTransaction_coinbase (hcb : tx.isCoinBase = true) :
    applyTransaction nHeight view tx = (updateCoins view tx nHeight).map Prod.snd := by
  unfold applyTransaction
  rw [hcb, if_pos rfl]
  rfl

lemma applyTransaction_of_hasInputs (hcb : tx.isCoinBase = false) (h : view.HasInputs tx.vin) :
    applyTransaction nHeight view tx = (updateCoins (view.fetchAll tx.vin) tx nHeight).map Prod.snd := by
  unfold applyTransaction
  rw [hcb, if_neg Bool.false_ne_true, haveInputs_of_have h]
  rfl

lemma applyTransaction_of_not_hasInputs (hcb : tx.isCoinBase = false) (h : ¬ view.HasInputs tx.vin) :
    applyTransaction nHeight view tx =
      .error (.reject ⟨100, "bad-txns-inputs-missingorspent", false⟩) := by
  unfold applyTransaction
  rw [hcb, if_neg Bool.false_ne_true]
  have hfalse := haveInputs_of_not_have h
  cases hpair : view.haveInputs tx.vin with
  | mk view₁ fHave =>
    rw [hpair] at hfalse
    obtain rfl : fHave = false := hfalse
    rfl

lemma haveCoin_updateCoins {undo : List Coin} (h : updateCoins view tx nHeight = .ok (undo, view'))
    (hspent : tx.isCoinBase = true ∨ o ∉ tx.vin.map (·.prevout)) (hne : ¬ Creates tx o) :
    view'.haveCoin o = view.haveCoin o := by
  obtain ⟨⟨undo₁, view₁⟩, hspend, h⟩ := bind_eq_ok_iff.mp h
  obtain ⟨view₂, hadd, h⟩ := bind_eq_ok_iff.mp h
  obtain ⟨-, rfl⟩ := Prod.mk.inj (Except.ok.inj h)
  have hadded : view₂.haveCoin o = view₁.haveCoin o := by
    refine haveCoin_addCoins hadd ?_
    rintro j txout hj hu rfl
    exact hne ⟨j, txout, hj, hu, by rw [Nat.zero_add]⟩
  rw [hadded]
  cases hcb : tx.isCoinBase with
  | true =>
    rw [hcb, if_pos rfl] at hspend
    obtain ⟨-, rfl⟩ := Prod.mk.inj (Except.ok.inj hspend)
    rfl
  | false =>
    rw [hcb, if_neg Bool.false_ne_true] at hspend
    rw [hcb] at hspent
    exact haveCoin_spendInputs hspend (hspent.resolve_left Bool.false_ne_true)

lemma haveCoin_applyTransaction (h : applyTransaction nHeight view tx = .ok view')
    (hhave : view.haveCoin o = false) (hne : ¬ Creates tx o) : view'.haveCoin o = false := by
  cases hcb : tx.isCoinBase with
  | true =>
    rw [applyTransaction_coinbase hcb] at h
    obtain ⟨⟨undo, view₁⟩, hupdate, rfl⟩ := map_eq_ok_iff.mp h
    rw [haveCoin_updateCoins hupdate (Or.inl hcb) hne, hhave]
  | false =>
    by_cases hin : view.HasInputs tx.vin
    · rw [applyTransaction_of_hasInputs hcb hin] at h
      obtain ⟨⟨undo, view₁⟩, hupdate, rfl⟩ := map_eq_ok_iff.mp h
      have hnot : o ∉ tx.vin.map (·.prevout) := by
        intro hmem
        obtain ⟨txin, htxin, rfl⟩ := mem_map.mp hmem
        rw [hin txin htxin] at hhave
        cases hhave
      rw [haveCoin_updateCoins hupdate (Or.inr hnot) hne, haveCoin_fetchAll, hhave]
    · rw [applyTransaction_of_not_hasInputs hcb hin] at h
      cases h

lemma haveCoin_applyTransactions {vtx : List (CTransaction sha256)}
    (h : applyTransactions nHeight view vtx = .ok view') (hhave : view.haveCoin o = false)
    (hne : ∀ tx ∈ vtx, ¬ Creates tx o) : view'.haveCoin o = false := by
  induction vtx generalizing view with
  | nil =>
    obtain rfl := Except.ok.inj h
    exact hhave
  | cons tx vtx ih =>
    obtain ⟨view₁, hstep, hrest⟩ := bind_eq_ok_iff.mp h
    rw [forall_mem_cons] at hne
    exact ih hrest (haveCoin_applyTransaction hstep hhave hne.1) hne.2

lemma noCrash_map {α β : Type} {x : Except Failure α} {f : α → β} : NoCrash (x.map f) ↔ NoCrash x := by
  cases x with
  | error e => simp [NoCrash, Except.map]
  | ok a => simp [NoCrash, Except.map]

lemma noCrash_applyTransaction_iff (hchk : checkTransaction tx.toCMutableTransaction false = .ok ()) :
    NoCrash (applyTransaction nHeight view tx) ↔
      (tx.isCoinBase = false → view.HasInputs tx.vin → UpdateSafe view tx) := by
  cases hcb : tx.isCoinBase with
  | true =>
    obtain ⟨r, hr⟩ := updateCoins_coinbase view nHeight hcb hchk
    rw [applyTransaction_coinbase hcb, hr]
    exact iff_of_true (noCrash_ok _) (fun h => absurd h (by decide))
  | false =>
    by_cases hin : view.HasInputs tx.vin
    · rw [applyTransaction_of_hasInputs hcb hin, noCrash_map, ← updateCoins_ok_iff nHeight hcb hchk hin]
      constructor
      · intro hno _ _
        cases hupdate : updateCoins (view.fetchAll tx.vin) tx nHeight with
        | ok r => exact ⟨r, rfl⟩
        | error f =>
          have hcrash := isCrash_of_updateCoins hupdate
          rw [hno f hupdate] at hcrash
          cases hcrash
      · intro hok
        obtain ⟨r, hr⟩ := hok rfl hin
        rw [hr]
        exact noCrash_ok r
    · rw [applyTransaction_of_not_hasInputs hcb hin]
      refine iff_of_true ?_ (fun _ h => absurd h hin)
      intro f hf
      obtain rfl := Except.error.inj hf
      rfl

end Step

lemma noCrash_foldlM_iff {σ ι : Type} {step : σ → ι → Except Failure σ} {l : List ι} {s : σ} :
    NoCrash (l.foldlM step s) ↔
      ∀ front i behind s', l = front ++ i :: behind → front.foldlM step s = .ok s' → NoCrash (step s' i) := by
  induction l generalizing s with
  | nil =>
    refine iff_of_true (noCrash_ok s) ?_
    intro front i behind s' heq
    exact absurd heq.symm (by simp)
  | cons i l ih =>
    rw [foldlM_cons]
    constructor
    · intro h front k behind s' heq hfront
      cases front with
      | nil =>
        obtain ⟨rfl, rfl⟩ := List.cons.inj heq
        obtain rfl := Except.ok.inj hfront
        intro f hf
        exact h f (by rw [hf]; rfl)
      | cons k' front =>
        obtain ⟨rfl, hl⟩ := List.cons.inj heq
        obtain ⟨s₁, hstep, hrest⟩ := bind_eq_ok_iff.mp hfront
        rw [hstep, ok_bind] at h
        exact ih.mp h front k behind s' hl hrest
    · intro h
      refine noCrash_bind (h [] i l s rfl rfl) (fun s₁ hstep => ih.mpr ?_)
      intro front k behind s' heq hfront
      refine h (i :: front) k behind s' (by rw [heq]; rfl) ?_
      rw [foldlM_cons, hstep, ok_bind, hfront]

/-- What a transaction needs that is reached behind the transactions `front` of the block: an outpoint
that it lists twice keeps its entry after the first spend, and where an earlier transaction with the
same id has an output too, the cache has no unspent coin that it does not spend itself. -/
structure IdSafe (front : List (CTransaction sha256)) (view : CCoinsViewCache) (tx : CTransaction sha256) :
    Prop where
  repeated : ∀ o ∈ tx.vin.map (·.prevout), 2 ≤ (tx.vin.map (·.prevout)).count o →
    ∀ entry, view.lookup o = some entry → entry.fresh = true → view.base o ≠ none
  distinct : ∀ tx' ∈ front, tx'.hash = tx.hash → ∀ j txout txout',
    tx.vout[j]? = some txout → CScript.isUnspendable txout.scriptPubKey = false →
    tx'.vout[j]? = some txout' → CScript.isUnspendable txout'.scriptPubKey = false →
    ⟨tx.hash, UInt32.ofNat j⟩ ∈ tx.vin.map (·.prevout) ∨ view.Free ⟨tx.hash, UInt32.ofNat j⟩

section Block

variable {view view' : CCoinsViewCache} {tx : CTransaction sha256} {nHeight : ℕ}
  {front behind : List (CTransaction sha256)}

lemma ofNat_inj_of_le {j k : ℕ} (hj : j < 2 ^ 32) (hk : k < 2 ^ 32) (h : UInt32.ofNat j = UInt32.ofNat k) :
    j = k := by
  have hn := congrArg UInt32.toNat h
  simp only [UInt32.toNat_ofNat'] at hn
  rwa [Nat.mod_eq_of_lt hj, Nat.mod_eq_of_lt hk] at hn

lemma lt_of_getElem?_vout (hchk : checkTransaction tx.toCMutableTransaction false = .ok ()) {j : ℕ}
    {txout : CTxOut} (hj : tx.vout[j]? = some txout) : j < 2 ^ 32 := by
  have hlen := length_vout_of_check hchk
  have hlt := (List.getElem?_eq_some_iff.mp hj).1
  omega

lemma updateSafe_iff_idSafe (hchk : ∀ t ∈ front ++ tx :: behind,
      checkTransaction t.toCMutableTransaction false = .ok ())
    (hbip30 : ∀ o ∈ blockOutpoints (front ++ tx :: behind), view.haveCoin o = false)
    (hfront : applyTransactions nHeight view front = .ok view') :
    UpdateSafe view' tx ↔ IdSafe front view' tx := by
  constructor
  · intro h
    exact ⟨h.repeated, fun tx' _ _ j txout txout' hj hu _ _ => h.free j txout hj hu⟩
  · intro h
    refine ⟨h.repeated, ?_⟩
    intro j txout hj hu
    have htx := hchk tx (by simp)
    by_cases hcreated : ∃ tx' ∈ front, Creates tx' ⟨tx.hash, UInt32.ofNat j⟩
    · obtain ⟨tx', hmem, k, txout', hk, hu', heq⟩ := hcreated
      obtain ⟨hhash, hn⟩ := COutPoint.mk.inj heq
      have htx' := hchk tx' (mem_append_left _ hmem)
      obtain rfl := ofNat_inj_of_le (lt_of_getElem?_vout htx hj) (lt_of_getElem?_vout htx' hk) hn
      exact h.distinct tx' hmem hhash.symm j txout txout' hj hu hk hu'
    · right
      have hlt := (List.getElem?_eq_some_iff.mp hj).1
      have hmem : (⟨tx.hash, UInt32.ofNat j⟩ : COutPoint) ∈ blockOutpoints (front ++ tx :: behind) :=
        mem_flatMap.mpr ⟨tx, by simp, mem_map.mpr ⟨j, mem_range.mpr hlt, rfl⟩⟩
      have hnone : ∀ t ∈ front, ¬ Creates t ⟨tx.hash, UInt32.ofNat j⟩ :=
        fun t ht hc => hcreated ⟨t, ht, hc⟩
      exact free_of_haveCoin (haveCoin_applyTransactions hfront (hbip30 _ hmem) hnone)

/-- Applying a block that `CheckBlock` accepts and that passes the check of BIP30 rejects or finishes
exactly if every transaction that is reached and finds its inputs is safe. -/
theorem applyTransactions_noCrash_iff (params : ConsensusParams) (view view₁ : CCoinsViewCache)
    (block block' : CBlock sha256) (nHeight : ℕ) (fCheckPOW fCheckMerkleRoot : Bool)
    (hf : block.fChecked = false)
    (hchk : checkBlock block params fCheckPOW fCheckMerkleRoot = .ok block')
    (hbip30 : checkBIP30 view (blockOutpoints block.vtx) = .ok view₁) :
    NoCrash (applyTransactions nHeight view₁ block.vtx) ↔
      ∀ front tx behind view', block.vtx = front ++ tx :: behind →
        applyTransactions nHeight view₁ front = .ok view' → tx.isCoinBase = false →
        view'.HasInputs tx.vin → IdSafe front view' tx := by
  have htxs := (checked_of_checkBlock hf hchk).transactions
  have hhave := haveCoin_eq_false_of_checkBIP30 hbip30
  have hstep : ∀ front tx behind view', block.vtx = front ++ tx :: behind →
      applyTransactions nHeight view₁ front = .ok view' →
      (NoCrash (applyTransaction nHeight view' tx) ↔
        (tx.isCoinBase = false → view'.HasInputs tx.vin → IdSafe front view' tx)) := by
    intro front tx behind view' heq hfront
    rw [heq] at htxs hhave
    rw [noCrash_applyTransaction_iff (htxs tx (by simp)), updateSafe_iff_idSafe htxs hhave hfront]
  unfold applyTransactions at hstep ⊢
  rw [noCrash_foldlM_iff]
  constructor
  · intro h front tx behind view' heq hfront
    exact (hstep front tx behind view' heq hfront).mp (h front tx behind view' heq hfront)
  · intro h front tx behind view' heq hfront
    exact (hstep front tx behind view' heq hfront).mpr (h front tx behind view' heq hfront)

end Block

section Twins

def secondOutpoint : COutPoint := ⟨⟨List.replicate 32 2, rfl⟩, 0⟩

def firstTwin : CTransaction cSHA256 where
  toCMutableTransaction := plainTransaction [⟨fundingOutpoint, [], SEQUENCE_FINAL, []⟩] [⟨5000000000, [0x51]⟩]
  hash := BaseBlob.ofNat 32 0x327c12ec6d3157d1c28921cb6aea0f8c3c876beb596d000fd4e669abc7938786
  computeHash_eq := by decide +kernel

/-- Spends another coin, with randomness that gives it the id of `firstTwin`. -/
def secondTwin : CTransaction cSHA256 where
  rValue := BaseBlob.ofNat 128 0x8ef617edea350d693958bac3b1db0b08494a3a03051d6c917d34be7eb204d308f38d4d61636497ad16526cd088f3d30266a88ee575712f6c840ea603f78793c4d6e5e7d2aed01f5adcde1b34dc1aa357379532bf115f158cfaea80cab0ba2703704bc0dbf8daf4fa320d36effc71d5009839a3d0c1eb2b964701e6f832e4407b
  sValue := BaseBlob.ofNat 128 0xa695b3cea5edfee68f9b373cb6cf3f8b2535ad1a1c1d14eed787ee1808fdac19c1942eeb011a3996f8ca61fddbb69704b57a3256adee6d74ffb69f3b0e6bfba323a6e4c8628903e8910912c62ed98b25cc0808f508e2be301d98a7793431a391468cec3bf2c59dfba63f607f804a5cc3656b4cf9350267a7cf983044a0ae4a56
  rscriptSig := BaseBlob.null 128
  sscriptSig := BaseBlob.null 128
  nVersion := 1
  vin := [⟨secondOutpoint, [], SEQUENCE_FINAL, []⟩]
  vout := [⟨5000000000, [0x51]⟩]
  nLockTime := 0
  hash := BaseBlob.ofNat 32 0x327c12ec6d3157d1c28921cb6aea0f8c3c876beb596d000fd4e669abc7938786
  computeHash_eq := by decide +kernel

def twinBlock : CBlock cSHA256 where
  nVersion := 4
  hashPrevBlock := BaseBlob.null 32
  hashMerkleRoot := BaseBlob.ofNat 32 0x7dfce3a6865625242d717539dce85f962770a631231487bc21d429bef711dec3
  nTime := 1296688602
  nBits := 0x207fffff
  nNonce := 0
  hashUChainVersion := BaseBlob.null 32
  vtx := [coinbaseTx, firstTwin, secondTwin]
  fChecked := false

def twinView : CCoinsViewCache where
  base := Function.update (Function.update (fun _ => none) fundingOutpoint (some fundingCoin)) secondOutpoint
    (some fundingCoin)
  cacheCoins := fun _ => none

lemma checkBlock_twinBlock : ∃ block', checkBlock twinBlock regtest true true = .ok block' := by
  have h : (checkBlock twinBlock regtest true true).isOk = true := by decide +kernel
  cases hc : checkBlock twinBlock regtest true true with
  | ok b => exact ⟨b, rfl⟩
  | error e => simp [hc, Except.isOk, Except.toBool] at h

def checkedTwinView : CCoinsViewCache :=
  ((twinView.fetchCoin ⟨coinbaseTx.hash, 0⟩).fetchCoin ⟨firstTwin.hash, 0⟩).fetchCoin ⟨secondTwin.hash, 0⟩

lemma checkBIP30_twinBlock : checkBIP30 twinView (blockOutpoints twinBlock.vtx) = .ok checkedTwinView := by
  have hout : blockOutpoints twinBlock.vtx =
      [⟨coinbaseTx.hash, 0⟩, ⟨firstTwin.hash, 0⟩, ⟨secondTwin.hash, 0⟩] := rfl
  rw [hout]
  unfold checkBIP30
  rw [if_neg (by decide +kernel)]
  unfold checkBIP30
  rw [if_neg (by decide +kernel)]
  unfold checkBIP30
  rw [if_neg (by decide +kernel)]
  rfl

theorem applyTransactions_noCrash_iff_twinBlock :
    ∃ view₁, checkBIP30 twinView (blockOutpoints twinBlock.vtx) = .ok view₁ ∧
      (NoCrash (applyTransactions 1 view₁ twinBlock.vtx) ↔
        ∀ front tx behind view', twinBlock.vtx = front ++ tx :: behind →
          applyTransactions 1 view₁ front = .ok view' → tx.isCoinBase = false →
          view'.HasInputs tx.vin → IdSafe front view' tx) := by
  obtain ⟨block', hchk⟩ := checkBlock_twinBlock
  exact ⟨_, checkBIP30_twinBlock, applyTransactions_noCrash_iff regtest twinView checkedTwinView twinBlock
    block' 1 true true rfl hchk checkBIP30_twinBlock⟩

def Failure.isLogicError : Failure → Bool
  | .crash .logicError => true
  | _ => false

theorem applyTransactions_twinBlock_crashes :
    (∃ block', checkBlock twinBlock regtest true true = .ok block') ∧
    ∃ view₁, checkBIP30 twinView (blockOutpoints twinBlock.vtx) = .ok view₁ ∧
      ∃ f, applyTransactions 1 view₁ twinBlock.vtx = .error f ∧ f.isLogicError = true := by
  refine ⟨checkBlock_twinBlock, _, checkBIP30_twinBlock, ?_⟩
  have h : (match applyTransactions 1 checkedTwinView twinBlock.vtx with
    | .error f => f.isLogicError
    | .ok _ => false) = true := by decide +kernel
  cases hc : applyTransactions 1 checkedTwinView twinBlock.vtx with
  | ok view => simp [hc] at h
  | error f =>
    simp only [hc] at h
    exact ⟨f, rfl, h⟩

end Twins

end MutableBitcoin
