import MutableBitcoin.BlockFile
import MutableBitcoin.CoinsMap
import MutableBitcoin.Disconnect

/-!
# Disconnecting undoes connecting

`UpdateCoins` is a run of edits of the map that the cache shows, and `DisconnectBlock` makes the
inverse edits.
-/

namespace MutableBitcoin
open Lib CCoinsViewCache List Function

/-- A coin that `ApplyTxInUndo` puts back as it was. -/
structure Restorable (coin : Coin) : Prop where
  height : 1 ≤ coin.nHeight
  spendable : CScript.isUnspendable coin.out.scriptPubKey = false

section Hypotheses

variable {sha256 : Bytes → Uint256}

def InputsPresent : CCoinsViewCache → List CTxIn → Prop
  | _, [] => True
  | view, txin :: vin => view.haveCoin txin.prevout = true ∧
      ∀ coin view', view.spendCoin txin.prevout = some (coin, view') → InputsPresent view' vin

/-- No output is in the view when it is added. -/
def OutputsAbsent (txid : Uint256) (fCoinbase : Bool) (nHeight : ℕ) :
    CCoinsViewCache → ℕ → List CTxOut → Prop
  | _, _, [] => True
  | view, i, txout :: vout =>
    (CScript.isUnspendable txout.scriptPubKey = false → view.haveCoin ⟨txid, UInt32.ofNat i⟩ = false) ∧
      ∀ view', view.addCoin ⟨txid, UInt32.ofNat i⟩ ⟨txout, fCoinbase, nHeight⟩ fCoinbase = .ok view' →
        OutputsAbsent txid fCoinbase nHeight view' (i + 1) vout

/-- The inputs are there, and no output is. -/
structure CleanUpdate (view : CCoinsViewCache) (tx : CTransaction sha256) (nHeight : ℕ) : Prop where
  inputs : tx.isCoinBase = false → InputsPresent view tx.vin
  outputs : ∀ txundo view', (if tx.isCoinBase then .ok ([], view) else view.spendInputs tx.vin) =
    .ok (txundo, view') → OutputsAbsent tx.hash tx.isCoinBase nHeight view' 0 tx.vout

def CleanUpdates (nHeight : ℕ) : CCoinsViewCache → List (CTransaction sha256) → Prop
  | _, [] => True
  | view, tx :: vtx => CleanUpdate view tx nHeight ∧
      ∀ txundo view', updateCoins view tx nHeight = .ok (txundo, view') → CleanUpdates nHeight view' vtx

/-- The first transaction is the only coinbase. -/
def CoinbaseFirst (vtx : List (CTransaction sha256)) : Prop :=
  ∃ coinbase rest, vtx = coinbase :: rest ∧ coinbase.isCoinBase = true ∧
    ∀ tx ∈ rest, tx.isCoinBase = false

/-- A redaction that kept its id. -/
def RedactedInPlace (oldTX newTX : CTransaction sha256) : Prop :=
  newTX.hash = oldTX.hash ∧ ∃ op k txout, RedactsTo op oldTX newTX k txout

end Hypotheses

section Edits

def spendEdit (input : CTxIn × Coin) : Edit COutPoint (Option Coin) := ⟨input.1.prevout, some input.2, none⟩

def createEdit (output : COutPoint × Coin) : Edit COutPoint (Option Coin) := ⟨output.1, none, some output.2⟩

/-- The coins of the spendable outputs from output `i` on. -/
def createdCoins (txid : Uint256) (fCoinbase : Bool) (nHeight : ℕ) : ℕ → List CTxOut → List (COutPoint × Coin)
  | _, [] => []
  | i, txout :: vout =>
    if CScript.isUnspendable txout.scriptPubKey then createdCoins txid fCoinbase nHeight (i + 1) vout
    else (⟨txid, UInt32.ofNat i⟩, ⟨txout, fCoinbase, nHeight⟩) ::
      createdCoins txid fCoinbase nHeight (i + 1) vout

variable {view view' : CCoinsViewCache} {txid : Uint256} {fCoinbase : Bool} {nHeight i : ℕ}
  {vout : List CTxOut} {vin : List CTxIn} {undo : List Coin} {m : COutPoint → Option Coin}

lemma createdCoins_unspendable {txout : CTxOut} (h : CScript.isUnspendable txout.scriptPubKey = true) :
    createdCoins txid fCoinbase nHeight i (txout :: vout) =
      createdCoins txid fCoinbase nHeight (i + 1) vout := if_pos h

lemma createdCoins_spendable {txout : CTxOut} (h : CScript.isUnspendable txout.scriptPubKey = false) :
    createdCoins txid fCoinbase nHeight i (txout :: vout) =
      (⟨txid, UInt32.ofNat i⟩, ⟨txout, fCoinbase, nHeight⟩) ::
        createdCoins txid fCoinbase nHeight (i + 1) vout := if_neg (by rw [h]; decide)

lemma restorable_of_created (hheight : 1 ≤ nHeight) :
    ∀ output ∈ createdCoins txid fCoinbase nHeight i vout, Restorable output.2 := by
  induction vout generalizing i with
  | nil => exact forall_mem_nil _
  | cons txout vout ih =>
    cases hu : CScript.isUnspendable txout.scriptPubKey with
    | true =>
      rw [createdCoins_unspendable hu]
      exact ih
    | false =>
      rw [createdCoins_spendable hu]
      exact forall_mem_cons.mpr ⟨⟨hheight, hu⟩, ih⟩

lemma edits_spendInputs (h : view.Coherent) (hpresent : InputsPresent view vin)
    (hrun : view.spendInputs vin = .ok (undo, view')) :
    undo.length = vin.length ∧ view'.Coherent ∧
      Edits ((vin.zip undo).map spendEdit) view.coins view'.coins := by
  induction vin generalizing view undo with
  | nil =>
    obtain ⟨rfl, rfl⟩ := Prod.mk.inj (Except.ok.inj hrun)
    exact ⟨rfl, h, .nil _⟩
  | cons txin vin ih =>
    obtain ⟨hhave, hrest⟩ := hpresent
    rw [haveCoin_eq, Option.isSome_iff_exists] at hhave
    obtain ⟨coin, hcoin⟩ := hhave
    obtain ⟨view₁, hspend, hcoherent, hcoins⟩ := spendCoin_of_coins h hcoin
    unfold spendInputs at hrun
    rw [hspend] at hrun
    obtain ⟨⟨undo₁, view₂⟩, hrun₁, hret⟩ := bind_eq_ok_iff.mp hrun
    obtain ⟨rfl, rfl⟩ := Prod.mk.inj (Except.ok.inj hret)
    obtain ⟨hlength, hcoherent₂, hedits⟩ := ih hcoherent (hrest coin view₁ hspend) hrun₁
    exact ⟨congrArg Nat.succ hlength, hcoherent₂, .cons ⟨hcoin, hcoins⟩ hedits⟩

lemma isSpent_of_addCoin {o : COutPoint} {coin : Coin} {possible_overwrite : Bool}
    (h : view.addCoin o coin possible_overwrite = .ok view') : coin.isSpent = false := by
  unfold addCoin at h
  cases hspent : coin.isSpent with
  | false => rfl
  | true =>
    rw [hspent, if_pos rfl] at h
    cases h

lemma edits_addCoins (h : view.Coherent) (habsent : OutputsAbsent txid fCoinbase nHeight view i vout)
    (hrun : view.addCoins txid fCoinbase nHeight i vout = .ok view') :
    view'.Coherent ∧
      Edits ((createdCoins txid fCoinbase nHeight i vout).map createEdit) view.coins view'.coins := by
  induction vout generalizing view i with
  | nil =>
    obtain rfl := Except.ok.inj hrun
    exact ⟨h, .nil _⟩
  | cons txout vout ih =>
    obtain ⟨hfree, hrest⟩ := habsent
    obtain ⟨view₁, hadd, hrun₁⟩ := bind_eq_ok_iff.mp hrun
    have hspent := isSpent_of_addCoin hadd
    cases hu : CScript.isUnspendable txout.scriptPubKey with
    | true =>
      rw [createdCoins_unspendable hu]
      obtain rfl := Except.ok.inj ((addCoin_of_unspendable hspent hu fCoinbase).symm.trans hadd)
      exact ih h (hrest _ hadd) hrun₁
    | false =>
      rw [createdCoins_spendable hu]
      have hnone := coins_eq_none_iff.mpr (hfree hu)
      obtain ⟨view₂, hadd₂, hcoherent, hcoins⟩ := addCoin_of_coins h hnone hspent hu
      obtain rfl := Except.ok.inj (hadd₂.symm.trans hadd)
      obtain ⟨hcoherent', hedits⟩ := ih hcoherent (hrest _ hadd) hrun₁
      exact ⟨hcoherent', .cons ⟨hnone, hcoins⟩ hedits⟩

lemma spendOutputs_of_edits (h : view.Coherent) (fClean : Bool)
    (hedits : Edits (((createdCoins txid fCoinbase nHeight i vout).map createEdit).map Edit.inverse)
      view.coins m) :
    ∃ view', spendOutputs txid fCoinbase nHeight view fClean i vout = (view', fClean) ∧
      view'.Coherent ∧ view'.coins = m := by
  induction vout generalizing view i with
  | nil =>
    cases hedits
    exact ⟨view, rfl, h, rfl⟩
  | cons txout vout ih =>
    unfold spendOutputs
    cases hu : CScript.isUnspendable txout.scriptPubKey with
    | true =>
      rw [createdCoins_unspendable hu] at hedits
      rw [if_pos rfl]
      exact ih h hedits
    | false =>
      rw [createdCoins_spendable hu] at hedits
      rw [if_neg Bool.false_ne_true]
      cases hedits with
      | cons hstep hrest =>
        obtain ⟨view₁, hspend, hcoherent, hcoins⟩ := spendCoin_of_coins h hstep.before
        have hstep₁ := hstep.after
        obtain rfl := hstep₁.trans hcoins.symm
        obtain ⟨view₂, hrun, hrest'⟩ := ih hcoherent hrest
        refine ⟨view₂, ?_, hrest'⟩
        have hspend' : view.spendCoin ⟨txid, UInt32.ofNat i⟩ = some (⟨txout, fCoinbase, nHeight⟩, view₁) :=
          hspend
        rw [hspend']
        dsimp only
        rw [bne_self_eq_false, bne_self_eq_false, bne_self_eq_false, Bool.or_self, Bool.or_self,
          Bool.not_false, Bool.and_true]
        exact hrun

lemma undoMetadata_of_restorable {coin : Coin} (h : Restorable coin) :
    undoMetadata coin view txid = (view, some coin) := by
  have hne : coin.nHeight ≠ 0 := Nat.one_le_iff_ne_zero.mp h.height
  unfold undoMetadata
  rw [if_neg hne]

lemma applyTxInUndo_of_coins (h : view.Coherent) {o : COutPoint} (hnone : view.coins o = none) {coin : Coin}
    (hcoin : Restorable coin) (hspent : coin.isSpent = false) :
    ∃ view', applyTxInUndo coin view o = .ok (view', .DISCONNECT_OK) ∧ view'.Coherent ∧
      view'.coins = Function.update view.coins o (some coin) := by
  have hnone' : (view.fetchCoin o).coins o = none := by
    rw [coins_fetchCoin]
    exact hnone
  have hput : ∃ view', (view.fetchCoin o).addCoin o coin false = .ok view' ∧ view'.Coherent ∧
      view'.coins = Function.update (view.fetchCoin o).coins o (some coin) :=
    addCoin_of_coins (h.fetchCoin o) hnone' hspent hcoin.spendable
  rw [coins_fetchCoin] at hput
  obtain ⟨view', hadd, hcoherent, hcoins⟩ := hput
  refine ⟨view', ?_, hcoherent, hcoins⟩
  unfold applyTxInUndo
  rw [undoMetadata_of_restorable hcoin, coins_eq_none_iff.mp hnone]
  dsimp only
  rw [Bool.not_false, Bool.not_true, hadd]
  rfl

lemma restoreInputs_of_edits (h : view.Coherent) {inputs : List (CTxIn × Coin)}
    (hcoins : ∀ input ∈ inputs, Restorable input.2 ∧ input.2.isSpent = false)
    (hedits : Edits ((inputs.map spendEdit).map Edit.inverse) view.coins m) :
    ∃ view', restoreInputs view true inputs = .ok (view', .DISCONNECT_OK) ∧ view'.Coherent ∧
      view'.coins = m := by
  induction inputs generalizing view with
  | nil =>
    cases hedits
    exact ⟨view, rfl, h, rfl⟩
  | cons input inputs ih =>
    obtain ⟨txin, coin⟩ := input
    rw [forall_mem_cons] at hcoins
    cases hedits with
    | cons hstep hrest =>
      obtain ⟨view₁, hrun₁, hcoherent, hcoins₁⟩ :=
        applyTxInUndo_of_coins h hstep.before hcoins.1.1 hcoins.1.2
      have hstep₁ := hstep.after
      obtain rfl := hstep₁.trans hcoins₁.symm
      obtain ⟨view₂, hrun₂, hrest'⟩ := ih hcoherent hcoins.2 hrest
      refine ⟨view₂, ?_, hrest'⟩
      have hrun₁' : applyTxInUndo coin view txin.prevout = .ok (view₁, .DISCONNECT_OK) := hrun₁
      unfold restoreInputs
      rw [hrun₁']
      exact hrun₂

end Edits

section Transaction

variable {sha256 : Bytes → Uint256} {view view' : CCoinsViewCache} {tx tx' : CTransaction sha256}
  {nHeight : ℕ} {txundo : List Coin}

/-- The coins that `UpdateCoins` puts. -/
def CTransaction.created (tx : CTransaction sha256) (nHeight : ℕ) : List (COutPoint × Coin) :=
  createdCoins tx.hash tx.isCoinBase nHeight 0 tx.vout

/-- What `DisconnectBlock` reads of a transaction. -/
structure SameUndo (tx tx' : CTransaction sha256) : Prop where
  vin : tx'.vin = tx.vin
  created : ∀ nHeight, tx'.created nHeight = tx.created nHeight

lemma created_setScriptPubKey {txid : Uint256} {fCoinbase : Bool} {i k : ℕ} {vout : List CTxOut}
    {script : CScript} (hnew : CScript.isUnspendable script = true)
    (hold : ∀ txout, vout[k]? = some txout → CScript.isUnspendable txout.scriptPubKey = true) :
    createdCoins txid fCoinbase nHeight i (setScriptPubKey vout k script) =
      createdCoins txid fCoinbase nHeight i vout := by
  unfold setScriptPubKey
  induction vout generalizing i k with
  | nil => rw [modify_nil]
  | cons txout vout ih =>
    cases k with
    | zero =>
      rw [modify_zero_cons, createdCoins_unspendable (hold txout rfl), createdCoins_unspendable]
      exact hnew
    | succ k =>
      rw [modify_succ_cons]
      have hrest := fun i => @ih i k (fun txout h => hold txout h)
      cases hu : CScript.isUnspendable txout.scriptPubKey with
      | true => rw [createdCoins_unspendable hu, createdCoins_unspendable hu, hrest]
      | false => rw [createdCoins_spendable hu, createdCoins_spendable hu, hrest]

lemma isUnspendable_of_isOpReturn {script : CScript} (h : isOpReturn script = true) :
    CScript.isUnspendable script = true := by
  unfold CScript.isUnspendable
  rw [Bool.or_eq_true]
  exact Or.inl h

lemma RedactedInPlace.sameUndo (h : RedactedInPlace tx tx') : SameUndo tx tx' := by
  obtain ⟨hhash, op, k, txout, hredacts⟩ := h
  refine ⟨hredacts.vin_eq, ?_⟩
  intro nHeight
  unfold CTransaction.created
  rw [hhash, hredacts.isCoinBase_eq, hredacts.vout_eq]
  apply created_setScriptPubKey (isUnspendable_of_isOpReturn (isOpReturn_redactedScript _ _))
  intro found hfound
  obtain rfl := Option.some.inj (hredacts.output.symm.trans hfound)
  exact isUnspendable_of_isOpReturn hredacts.isOpReturn

lemma sameUndo_of_redactions (h : Relation.ReflTransGen RedactedInPlace tx tx') : SameUndo tx tx' := by
  induction h with
  | refl => exact ⟨rfl, fun _ => rfl⟩
  | tail _ hstep ih =>
    have hstep' := hstep.sameUndo
    exact ⟨hstep'.vin.trans ih.vin, fun nHeight => (hstep'.created nHeight).trans (ih.created nHeight)⟩

/-- The inputs that `UpdateCoins` takes, with the undo records. -/
def takenInputs (tx : CTransaction sha256) (txundo : List Coin) : List (CTxIn × Coin) :=
  if tx.isCoinBase then [] else tx.vin.zip txundo

lemma edits_updateCoins (h : view.Coherent) (hclean : CleanUpdate view tx nHeight)
    (hrun : updateCoins view tx nHeight = .ok (txundo, view')) :
    view'.Coherent ∧ (tx.isCoinBase = false → txundo.length = tx.vin.length) ∧
      ∃ m, Edits ((takenInputs tx txundo).map spendEdit) view.coins m ∧
        Edits ((tx.created nHeight).map createEdit) m view'.coins := by
  obtain ⟨⟨undo, view₁⟩, hspend, hrun⟩ := bind_eq_ok_iff.mp hrun
  obtain ⟨view₂, hadd, hret⟩ := bind_eq_ok_iff.mp hrun
  obtain ⟨rfl, rfl⟩ := Prod.mk.inj (Except.ok.inj hret)
  have habsent := hclean.outputs _ _ hspend
  unfold takenInputs
  cases hcb : tx.isCoinBase with
  | true =>
    rw [hcb, if_pos rfl] at hspend
    obtain ⟨rfl, rfl⟩ := Prod.mk.inj (Except.ok.inj hspend)
    obtain ⟨hcoherent, hedits⟩ := edits_addCoins h habsent hadd
    exact ⟨hcoherent, by rintro ⟨⟩, view.coins, .nil _, hedits⟩
  | false =>
    rw [hcb, if_neg Bool.false_ne_true] at hspend
    obtain ⟨hlength, hcoherent₁, htaken⟩ := edits_spendInputs h (hclean.inputs hcb) hspend
    obtain ⟨hcoherent, hedits⟩ := edits_addCoins hcoherent₁ habsent hadd
    exact ⟨hcoherent, fun _ => hlength, view₁.coins, htaken, hedits⟩

/-- Every coin can be put back. -/
def RestorableMap (m : COutPoint → Option Coin) : Prop := ∀ o coin, m o = some coin → Restorable coin

lemma restorableMap_updateCoins (h : view.Coherent) (hmap : RestorableMap view.coins) (hheight : 1 ≤ nHeight)
    (hclean : CleanUpdate view tx nHeight) (hrun : updateCoins view tx nHeight = .ok (txundo, view')) :
    RestorableMap view'.coins := by
  obtain ⟨-, -, m, htaken, hput⟩ := edits_updateCoins h hclean hrun
  have hafter : ∀ e ∈ (takenInputs tx txundo).map spendEdit ++ (tx.created nHeight).map createEdit,
      ∀ coin, e.after = some coin → Restorable coin := by
    intro e he
    rcases mem_append.mp he with he | he
    · obtain ⟨input, -, rfl⟩ := mem_map.mp he
      rintro coin ⟨⟩
    · obtain ⟨output, houtput, rfl⟩ := mem_map.mp he
      rintro _ ⟨⟩
      exact restorable_of_created hheight output houtput
  exact ((htaken.append hput).values (P := fun v => ∀ coin, v = some coin → Restorable coin) hmap hafter).2

lemma disconnectTransaction_restores (h : view.Coherent) (hmap : RestorableMap view.coins)
    (hclean : CleanUpdate view tx nHeight) (hrun : updateCoins view tx nHeight = .ok (txundo, view'))
    (hsame : SameUndo tx tx') {w : CCoinsViewCache} (hw : w.Coherent) (hcoins : w.coins = view'.coins) :
    ∃ w', disconnectTransaction nHeight w true tx' (if tx.isCoinBase then none else some txundo) =
      .ok (w', .DISCONNECT_OK) ∧ w'.Coherent ∧ w'.coins = view.coins := by
  obtain ⟨-, hlength, m, htaken, hput⟩ := edits_updateCoins h hclean hrun
  have hundo : Edits (((tx.created nHeight).map createEdit).map Edit.inverse) view'.coins m :=
    hput.inverse_of_create (forall_mem_map.mpr fun _ _ => rfl)
      (forall_mem_map.mpr fun _ _ => Option.some_ne_none _)
  rw [← hcoins, ← hsame.created] at hundo
  obtain ⟨w₁, hspend, hw₁, hcoins₁⟩ := spendOutputs_of_edits hw true hundo
  unfold disconnectTransaction
  rw [hspend]
  dsimp only
  unfold takenInputs at htaken
  cases hcb : tx.isCoinBase with
  | true =>
    rw [hcb, if_pos rfl] at htaken
    cases htaken
    exact ⟨w₁, rfl, hw₁, hcoins₁⟩
  | false =>
    rw [hcb, if_neg Bool.false_ne_true] at htaken
    rw [if_neg Bool.false_ne_true]
    dsimp only
    rw [hsame.vin, if_neg (not_not.mpr (hlength hcb))]
    have hgood : ∀ input ∈ (tx.vin.zip txundo).reverse, Restorable input.2 ∧ input.2.isSpent = false := by
      intro input hinput
      have hbefore := (htaken.values (P := fun v => ∀ coin, v = some coin → Restorable coin ∧ coin.isSpent = false)
        (fun o coin hcoin => ⟨hmap o coin hcoin, isSpent_of_coins hcoin⟩)
        (forall_mem_map.mpr (by rintro _ _ _ ⟨⟩))).1
      exact hbefore (spendEdit input) (mem_map_of_mem (mem_reverse.mp hinput)) input.2 rfl
    have hback := htaken.inverse
    rw [← map_reverse, ← hcoins₁] at hback
    exact restoreInputs_of_edits hw₁ hgood hback

end Transaction

section Block

variable {sha256 : Bytes → Uint256} {view view' : CCoinsViewCache} {vtx vtx' : List (CTransaction sha256)}
  {nHeight : ℕ} {vtxundo : List (List Coin)}

lemma disconnectTransactions_cons (w : CCoinsViewCache) (fClean : Bool) (tx : CTransaction sha256)
    (txundo : Option (List Coin)) (l : List (CTransaction sha256 × Option (List Coin))) :
    disconnectTransactions nHeight w fClean ((tx, txundo) :: l) =
      disconnectTransaction nHeight w fClean tx txundo >>= fun r =>
        if r.2 = .DISCONNECT_FAILED then .ok r
        else disconnectTransactions nHeight r.1 (r.2 != .DISCONNECT_UNCLEAN) l := rfl

lemma disconnectTransactions_append (w : CCoinsViewCache) (fClean : Bool)
    (l rest : List (CTransaction sha256 × Option (List Coin))) :
    disconnectTransactions nHeight w fClean (l ++ rest) =
      disconnectTransactions nHeight w fClean l >>= fun r =>
        if r.2 = .DISCONNECT_FAILED then .ok r
        else disconnectTransactions nHeight r.1 (r.2 != .DISCONNECT_UNCLEAN) rest := by
  induction l generalizing w fClean with
  | nil =>
    cases fClean with
    | true => rfl
    | false => rfl
  | cons x l ih =>
    obtain ⟨tx, txundo⟩ := x
    rw [cons_append, disconnectTransactions_cons, disconnectTransactions_cons]
    cases disconnectTransaction nHeight w fClean tx txundo with
    | error f => rfl
    | ok r =>
      rw [ok_bind, ok_bind]
      by_cases hres : r.2 = .DISCONNECT_FAILED
      · rw [if_pos hres, if_pos hres, ok_bind, if_pos hres]
      · rw [if_neg hres, if_neg hres]
        exact ih _ _

/-- The undo records that `DisconnectBlock` uses for each transaction. -/
def usedRecords (vtx : List (CTransaction sha256)) (vtxundo : List (List Coin)) : List (Option (List Coin)) :=
  List.zipWith (fun tx txundo => if tx.isCoinBase then none else some txundo) vtx vtxundo

lemma disconnectTransactions_restores (hsame : List.Forall₂ SameUndo vtx vtx') (h : view.Coherent)
    (hmap : RestorableMap view.coins) (hheight : 1 ≤ nHeight) (hclean : CleanUpdates nHeight view vtx)
    (hrun : updateCoinsAll nHeight view vtx = .ok (vtxundo, view')) :
    view'.Coherent ∧ vtxundo.length = vtx.length ∧ ∀ w : CCoinsViewCache, w.Coherent → w.coins = view'.coins →
      ∃ w', disconnectTransactions nHeight w true (vtx'.zip (usedRecords vtx vtxundo)).reverse =
        .ok (w', .DISCONNECT_OK) ∧ w'.Coherent ∧ w'.coins = view.coins := by
  induction hsame generalizing view vtxundo with
  | nil =>
    obtain ⟨rfl, rfl⟩ := Prod.mk.inj (Except.ok.inj hrun)
    exact ⟨h, rfl, fun w hw hcoins => ⟨w, rfl, hw, hcoins⟩⟩
  | @cons tx tx' vtx vtx' htx _ ih =>
    obtain ⟨⟨txundo, view₁⟩, hupdate, hrun⟩ := bind_eq_ok_iff.mp hrun
    obtain ⟨⟨vtxundo, view₂⟩, hrest, hret⟩ := bind_eq_ok_iff.mp hrun
    obtain ⟨rfl, rfl⟩ := Prod.mk.inj (Except.ok.inj hret)
    have hmap₁ := restorableMap_updateCoins h hmap hheight hclean.1 hupdate
    obtain ⟨hcoherent₁, -⟩ := edits_updateCoins h hclean.1 hupdate
    obtain ⟨hcoherent₂, hlength, hback⟩ := ih hcoherent₁ hmap₁ (hclean.2 txundo view₁ hupdate) hrest
    refine ⟨hcoherent₂, congrArg Nat.succ hlength, ?_⟩
    intro w hw hcoins
    obtain ⟨w₁, hrun₁, hw₁, hcoins₁⟩ := hback w hw hcoins
    obtain ⟨w₂, hrun₂, hw₂, hcoins₂⟩ := disconnectTransaction_restores h hmap hclean.1 hupdate htx hw₁ hcoins₁
    refine ⟨w₂, ?_, hw₂, hcoins₂⟩
    have hzip : (tx' :: vtx').zip (usedRecords (tx :: vtx) (txundo :: vtxundo)) =
        (tx', if tx.isCoinBase then none else some txundo) :: vtx'.zip (usedRecords vtx vtxundo) := rfl
    have hclean₁ : (DisconnectResult.DISCONNECT_OK != .DISCONNECT_UNCLEAN) = true := rfl
    rw [hzip, reverse_cons, disconnectTransactions_append, hrun₁, ok_bind, if_neg DisconnectResult.noConfusion,
      hclean₁, disconnectTransactions_cons, hrun₂]
    rfl

lemma usedRecords_of_coinbaseFirst (hcb : CoinbaseFirst vtx) (hlength : vtxundo.length = vtx.length) :
    usedRecords vtx vtxundo = none :: vtxundo.tail.map some := by
  obtain ⟨coinbase, rest, rfl, hcoinbase, hrest⟩ := hcb
  cases vtxundo with
  | nil => cases hlength
  | cons txundo vtxundo =>
    have hrecords : usedRecords rest vtxundo = vtxundo.map some := by
      have hlength' : vtxundo.length = rest.length := Nat.succ.inj hlength
      clear hlength
      induction rest generalizing vtxundo with
      | nil =>
        obtain rfl := length_eq_zero_iff.mp hlength'
        rfl
      | cons tx rest ih =>
        rw [forall_mem_cons] at hrest
        cases vtxundo with
        | nil => cases hlength'
        | cons txundo vtxundo =>
          have htail := ih hrest.2 vtxundo (Nat.succ.inj hlength')
          have hhead : usedRecords (tx :: rest) (txundo :: vtxundo) =
              (if tx.isCoinBase then none else some txundo) :: usedRecords rest vtxundo := rfl
          rw [hhead, htail, hrest.1, if_neg Bool.false_ne_true]
          rfl
    have hhead : usedRecords (coinbase :: rest) (txundo :: vtxundo) =
        (if coinbase.isCoinBase then none else some txundo) :: usedRecords rest vtxundo := rfl
    rw [hhead, hrecords, hcoinbase, if_pos rfl]
    rfl

/-- Disconnecting a block restores the map of coins from before it was connected, also if
transactions of the block have been redacted under the same id in the meantime. -/
theorem disconnectBlock_restores (view view' : CCoinsViewCache) (vtx vtx' : List (CTransaction sha256))
    (vtxundo : List (List Coin)) (nHeight : ℕ) (hview : view.Coherent)
    (hmap : ∀ o coin, view.coins o = some coin →
      1 ≤ coin.nHeight ∧ CScript.isUnspendable coin.out.scriptPubKey = false)
    (hheight : 1 ≤ nHeight) (hcoinbase : CoinbaseFirst vtx)
    (hrun : updateCoinsAll nHeight view vtx = .ok (vtxundo, view'))
    (hclean : CleanUpdates nHeight view vtx)
    (hdisk : List.Forall₂ (Relation.ReflTransGen RedactedInPlace) vtx vtx') :
    ∃ w, disconnectBlock nHeight view' vtx' (some vtxundo.tail) = .ok (w, .DISCONNECT_OK) ∧
      w.coins = view.coins := by
  have hmap' : RestorableMap view.coins := fun o coin hcoin => ⟨(hmap o coin hcoin).1, (hmap o coin hcoin).2⟩
  have hsame : List.Forall₂ SameUndo vtx vtx' := hdisk.imp fun _ _ => sameUndo_of_redactions
  obtain ⟨hcoherent, hlength, hback⟩ :=
    disconnectTransactions_restores hsame hview hmap' hheight hclean hrun
  obtain ⟨w, hw, -, hcoins⟩ := hback view' hcoherent rfl
  refine ⟨w, ?_, hcoins⟩
  have hsizes : vtxundo.tail.length + 1 = vtx'.length := by
    obtain ⟨coinbase, rest, rfl, -⟩ := hcoinbase
    rw [length_tail, hlength, ← hdisk.length_eq]
    rfl
  unfold disconnectBlock
  dsimp only
  rw [if_neg (not_not.mpr hsizes), ← usedRecords_of_coinbaseFirst hcoinbase hlength]
  exact hw

end Block

section DataBlock

lemma length_dataHash : (List.replicate 32 (7 : UInt8)).length = 32 := rfl

def dataOutpoint : COutPoint := ⟨⟨List.replicate 32 7, length_dataHash⟩, 0⟩

variable (coin : Coin)

def dataView : CCoinsViewCache := ⟨Function.update (fun _ => none) dataOutpoint (some coin), fun _ => none⟩

def minedView : CCoinsViewCache :=
  (dataView coin).set ⟨coinbaseTx.hash, 0⟩ (some ⟨⟨⟨5000000000, [0x51]⟩, true, 2⟩, true, false⟩)

def spentView : CCoinsViewCache := (minedView coin).set dataOutpoint (some ⟨Coin.empty, true, false⟩)

variable {coin}

lemma updateCoins_coinbaseTx : updateCoins (dataView coin) coinbaseTx 2 = .ok ([], minedView coin) := rfl

lemma spendInputs_dataTransaction (hspent : coin.isSpent = false) :
    (minedView coin).spendInputs (dataTransactionRef dataScript).vin = .ok ([coin], spentView coin) := by
  have hlookup : (minedView coin).lookup dataOutpoint = some ⟨coin, false, false⟩ := by
    show some (CCoinsCacheEntry.mk coin false coin.isSpent) = _
    rw [hspent]
  have hspend : (minedView coin).spendCoin dataOutpoint = some (coin, spentView coin) := by
    unfold spendCoin
    rw [hlookup]
    rfl
  have hvin : (dataTransactionRef dataScript).vin = [⟨dataOutpoint, [], SEQUENCE_FINAL, []⟩] := rfl
  rw [hvin]
  unfold spendInputs
  rw [hspend]
  rfl

lemma updateCoins_dataTransaction (hspent : coin.isSpent = false) :
    updateCoins (minedView coin) (dataTransactionRef dataScript) 2 = .ok ([coin], spentView coin) := by
  have hcb : (dataTransactionRef dataScript).isCoinBase = false := rfl
  have hvout : (dataTransactionRef dataScript).vout = [⟨0, dataScript⟩] := rfl
  unfold updateCoins
  rw [hcb, if_neg Bool.false_ne_true, spendInputs_dataTransaction hspent, ok_bind, hvout]
  unfold addCoins
  dsimp only
  rw [addCoin_of_unspendable rfl rfl]
  rfl

def spendingBlock : List (CTransaction cSHA256) := [coinbaseTx, dataTransactionRef dataScript]

lemma updateCoinsAll_spendingBlock (hspent : coin.isSpent = false) :
    updateCoinsAll 2 (dataView coin) spendingBlock = .ok ([[], [coin]], spentView coin) := by
  unfold spendingBlock updateCoinsAll updateCoinsAll updateCoinsAll
  rw [updateCoins_coinbaseTx, ok_bind]
  dsimp only
  rw [updateCoins_dataTransaction hspent]
  rfl

lemma cleanUpdates_spendingBlock (hspent : coin.isSpent = false) :
    CleanUpdates 2 (dataView coin) spendingBlock := by
  have hhave : (minedView coin).haveCoin dataOutpoint = true := by
    show (!coin.isSpent) = true
    rw [hspent]
    rfl
  refine ⟨⟨by rintro ⟨⟩, ?_⟩, ?_⟩
  · rintro txundo view' ⟨⟩
    exact ⟨fun _ => rfl, fun _ _ => trivial⟩
  · intro txundo view' hrun
    obtain ⟨-, rfl⟩ := Prod.mk.inj (Except.ok.inj (updateCoins_coinbaseTx.symm.trans hrun))
    refine ⟨⟨fun _ => ⟨hhave, fun _ _ _ => trivial⟩, ?_⟩, fun _ _ _ => trivial⟩
    intro txundo view' _
    exact ⟨by rintro ⟨⟩, fun _ _ => trivial⟩

lemma coins_dataView (coin : Coin) : (dataView coin).coins = Function.update (fun _ => none) dataOutpoint coin.unspent := by
  funext o
  rw [coins_eq_shown]
  show (Function.update (fun _ => none) dataOutpoint (some coin) o).bind Coin.unspent = _
  by_cases ho : o = dataOutpoint
  · rw [ho, update_self, update_self]
    rfl
  · rw [update_of_ne ho, update_of_ne ho]
    rfl

lemma coins_dataView_eq_some {o : COutPoint} {found : Coin} (h : (dataView coin).coins o = some found) :
    found = coin := by
  rw [coins_dataView] at h
  by_cases ho : o = dataOutpoint
  · rw [ho, update_self] at h
    unfold Coin.unspent at h
    split_ifs at h
    exact (Option.some.inj h).symm
  · rw [update_of_ne ho] at h
    cases h

lemma redactedInPlace_data (hw : (dataTransactionRef dataScript).hasWitness = false) :
    RedactedInPlace (dataTransactionRef dataScript) (redactedData .hide dataScript) := by
  have h : RedactsTo .hide (dataTransactionRef dataScript) (redactedData .hide dataScript) 0 ⟨0, dataScript⟩ :=
    ⟨rfl, rfl, redact_dataTransactionRef .hide rfl⟩
  exact ⟨h.hash_eq_of_not_hasWitness hw, .hide, 0, _, h⟩

def earlyCoin : Coin := ⟨⟨5000000000, [0x51]⟩, false, 1⟩

theorem disconnectBlock_restores_spendingBlock :
    ∃ w, disconnectBlock 2 (spentView earlyCoin) [coinbaseTx, redactedData .hide dataScript] (some [[earlyCoin]]) =
      .ok (w, .DISCONNECT_OK) ∧ w.coins = (dataView earlyCoin).coins := by
  refine disconnectBlock_restores (dataView earlyCoin) (spentView earlyCoin) spendingBlock
    [coinbaseTx, redactedData .hide dataScript] [[], [earlyCoin]] 2 (coherent_of_empty _) ?_ (by decide)
    ⟨coinbaseTx, _, rfl, rfl, forall_mem_singleton.mpr rfl⟩ (updateCoinsAll_spendingBlock rfl)
    (cleanUpdates_spendingBlock rfl)
    (.cons .refl (.cons (.single (redactedInPlace_data rfl)) .nil))
  intro o coin h
  obtain rfl := coins_dataView_eq_some h
  exact ⟨le_refl 1, rfl⟩

/-- A coin that `AddCoin` would not have put into the map. -/
def unspendableCoin : Coin := ⟨⟨0, dataScript⟩, false, 1⟩

def losesCoin (result : Except Failure (CCoinsViewCache × DisconnectResult)) : Bool :=
  match result with
  | .ok (w, _) => (w.coins dataOutpoint).isNone
  | .error _ => false

lemma not_restored_of_losesCoin {view : CCoinsViewCache} {result : Except Failure (CCoinsViewCache × DisconnectResult)}
    (hlost : losesCoin result = true) (hcoin : view.coins dataOutpoint = some coin) :
    ¬ ∃ w, result = .ok (w, .DISCONNECT_OK) ∧ w.coins = view.coins := by
  rintro ⟨w, rfl, hcoins⟩
  have hnone : w.coins dataOutpoint = none := Option.isNone_iff_eq_none.mp hlost
  rw [hcoins, hcoin] at hnone
  cases hnone

/-- A spent coin is lost if its script is unspendable, or if the first transaction spends it and is
not a coinbase. -/
theorem disconnectBlock_loses_coin :
    ((∀ o coin, (dataView unspendableCoin).coins o = some coin → 1 ≤ coin.nHeight) ∧
      CoinbaseFirst spendingBlock ∧ CleanUpdates 2 (dataView unspendableCoin) spendingBlock ∧
      updateCoinsAll 2 (dataView unspendableCoin) spendingBlock =
        .ok ([[], [unspendableCoin]], spentView unspendableCoin) ∧
      ¬ ∃ w, disconnectBlock 2 (spentView unspendableCoin) spendingBlock (some [[unspendableCoin]]) =
        .ok (w, .DISCONNECT_OK) ∧ w.coins = (dataView unspendableCoin).coins) ∧
    ((∀ o coin, (dataView earlyCoin).coins o = some coin →
        1 ≤ coin.nHeight ∧ CScript.isUnspendable coin.out.scriptPubKey = false) ∧
      CleanUpdates 2 (dataView earlyCoin) [dataTransactionRef dataScript] ∧
      ∃ view, updateCoinsAll 2 (dataView earlyCoin) [dataTransactionRef dataScript] = .ok ([[earlyCoin]], view) ∧
        ¬ ∃ w, disconnectBlock 2 view [dataTransactionRef dataScript] (some []) = .ok (w, .DISCONNECT_OK) ∧
          w.coins = (dataView earlyCoin).coins) := by
  have hcoin : ∀ coin : Coin, coin.isSpent = false → (dataView coin).coins dataOutpoint = some coin := by
    intro coin hspent
    rw [coins_dataView, update_self, unspent_of_not_isSpent hspent]
  refine ⟨⟨?_, ⟨coinbaseTx, _, rfl, rfl, forall_mem_singleton.mpr rfl⟩, cleanUpdates_spendingBlock rfl,
    updateCoinsAll_spendingBlock rfl, not_restored_of_losesCoin (by decide +kernel) (hcoin _ rfl)⟩, ?_, ?_, ?_⟩
  · intro o coin h
    obtain rfl := coins_dataView_eq_some h
    exact le_refl 1
  · intro o coin h
    obtain rfl := coins_dataView_eq_some h
    exact ⟨le_refl 1, rfl⟩
  · refine ⟨⟨fun _ => ⟨rfl, fun _ _ _ => trivial⟩, ?_⟩, fun _ _ _ => trivial⟩
    intro txundo view' _
    exact ⟨by rintro ⟨⟩, fun _ _ => trivial⟩
  · refine ⟨(dataView earlyCoin).set dataOutpoint (some ⟨Coin.empty, true, false⟩), ?_,
      not_restored_of_losesCoin (by decide +kernel) (hcoin _ rfl)⟩
    rfl

end DataBlock

end MutableBitcoin
