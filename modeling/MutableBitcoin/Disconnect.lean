import MutableBitcoin.CoinsRefinement
import MutableBitcoin.Lib.UndoLog

/-!
# Disconnecting a block

`ApplyTxInUndo` and `DisconnectBlock` of `validation.cpp`. The transactions are undone in reverse order.
-/

namespace MutableBitcoin
open Lib

/-- `DisconnectResult`. -/
inductive DisconnectResult where
  | DISCONNECT_OK
  | DISCONNECT_UNCLEAN
  | DISCONNECT_FAILED
deriving DecidableEq

/-- `fClean ? DISCONNECT_OK : DISCONNECT_UNCLEAN`. -/
def DisconnectResult.ofClean (fClean : Bool) : DisconnectResult :=
  if fClean then .DISCONNECT_OK else .DISCONNECT_UNCLEAN

def MIN_TRANSACTION_OUTPUT_WEIGHT : ℕ := WITNESS_SCALE_FACTOR * 9

def MAX_OUTPUTS_PER_BLOCK : ℕ := MAX_BLOCK_WEIGHT / MIN_TRANSACTION_OUTPUT_WEIGHT

/-- The loop of `AccessByTxid` from output `n`, with `left` rounds left. -/
def accessByTxidFrom (txid : Uint256) : CCoinsViewCache → ℕ → UInt32 → CCoinsViewCache × Coin
  | view, 0, _ => (view, Coin.empty)
  | view, left + 1, n =>
    let alternate := view.accessCoin ⟨txid, n⟩
    if !alternate.isSpent then (view.fetchCoin ⟨txid, n⟩, alternate)
    else accessByTxidFrom txid (view.fetchCoin ⟨txid, n⟩) left (n + 1)

def accessByTxid (view : CCoinsViewCache) (txid : Uint256) : CCoinsViewCache × Coin :=
  accessByTxidFrom txid view MAX_OUTPUTS_PER_BLOCK 0

/-- The undo coin with its height, looked up in older records. -/
def undoMetadata (undo : Coin) (view : CCoinsViewCache) (txid : Uint256) : CCoinsViewCache × Option Coin :=
  if undo.nHeight = 0 then
    let (view, alternate) := accessByTxid view txid
    if !alternate.isSpent then
      (view, some { undo with nHeight := alternate.nHeight, fCoinBase := alternate.fCoinBase })
    else (view, none)
  else (view, some undo)

/-- `ApplyTxInUndo`. -/
def applyTxInUndo (undo : Coin) (view : CCoinsViewCache) (out : COutPoint) :
    Except Failure (CCoinsViewCache × DisconnectResult) :=
  let fClean := !view.haveCoin out
  match undoMetadata undo (view.fetchCoin out) out.hash with
  | (view, none) => .ok (view, .DISCONNECT_FAILED)
  | (view, some undo) => do
    let view ← view.addCoin out undo (!fClean)
    return (view, .ofClean fClean)

/-- The input loop of `DisconnectBlock`. -/
def restoreInputs : CCoinsViewCache → Bool → List (CTxIn × Coin) →
    Except Failure (CCoinsViewCache × DisconnectResult)
  | view, fClean, [] => .ok (view, .ofClean fClean)
  | view, fClean, (txin, undo) :: inputs => do
    let (view, res) ← applyTxInUndo undo view txin.prevout
    if res = .DISCONNECT_FAILED then return (view, res)
    else restoreInputs view (fClean && res != .DISCONNECT_UNCLEAN) inputs

/-- The loop over the outputs from output `o` on: whether they are all available and match. -/
def spendOutputs (txid : Uint256) (is_coinbase : Bool) (nHeight : ℕ) :
    CCoinsViewCache → Bool → ℕ → List CTxOut → CCoinsViewCache × Bool
  | view, fClean, _, [] => (view, fClean)
  | view, fClean, o, txout :: vout =>
    if CScript.isUnspendable txout.scriptPubKey then
      spendOutputs txid is_coinbase nHeight view fClean (o + 1) vout
    else
      match view.spendCoin ⟨txid, UInt32.ofNat o⟩ with
      | none => spendOutputs txid is_coinbase nHeight view false (o + 1) vout
      | some (coin, view) =>
        let mismatch := txout != coin.out || nHeight != coin.nHeight || is_coinbase != coin.fCoinBase
        spendOutputs txid is_coinbase nHeight view (fClean && !mismatch) (o + 1) vout

section Block

variable {sha256 : Bytes → Uint256}

/-- The loop body of `DisconnectBlock`. -/
def disconnectTransaction (nHeight : ℕ) (view : CCoinsViewCache) (fClean : Bool)
    (tx : CTransaction sha256) (txundo : Option (List Coin)) :
    Except Failure (CCoinsViewCache × DisconnectResult) :=
  let (view, fClean) := spendOutputs tx.hash tx.isCoinBase nHeight view fClean 0 tx.vout
  match txundo with
  | none => .ok (view, .ofClean fClean)
  | some vprevout =>
    if vprevout.length ≠ tx.vin.length then .ok (view, .DISCONNECT_FAILED)
    else restoreInputs view fClean (tx.vin.zip vprevout).reverse

/-- The transaction loop of `DisconnectBlock`. -/
def disconnectTransactions (nHeight : ℕ) : CCoinsViewCache → Bool →
    List (CTransaction sha256 × Option (List Coin)) → Except Failure (CCoinsViewCache × DisconnectResult)
  | view, fClean, [] => .ok (view, .ofClean fClean)
  | view, fClean, (tx, txundo) :: vtx => do
    let (view, res) ← disconnectTransaction nHeight view fClean tx txundo
    if res = .DISCONNECT_FAILED then return (view, res)
    else disconnectTransactions nHeight view (res != .DISCONNECT_UNCLEAN) vtx

/-- The undo data is `none` if there is none or it cannot be read. -/
def disconnectBlock (nHeight : ℕ) (view : CCoinsViewCache) (vtx : List (CTransaction sha256))
    (blockUndo : Option (List (List Coin))) : Except Failure (CCoinsViewCache × DisconnectResult) :=
  match blockUndo with
  | none => .ok (view, .DISCONNECT_FAILED)
  | some vtxundo =>
    if vtxundo.length + 1 ≠ vtx.length then .ok (view, .DISCONNECT_FAILED)
    else disconnectTransactions nHeight view true (vtx.zip (none :: vtxundo.map some)).reverse

/-- `UpdateCoins` for the transactions in order, with the undo records of each. -/
def updateCoinsAll (nHeight : ℕ) : CCoinsViewCache → List (CTransaction sha256) →
    Except Failure (List (List Coin) × CCoinsViewCache)
  | view, [] => .ok ([], view)
  | view, tx :: vtx => do
    let (txundo, view) ← updateCoins view tx nHeight
    let (vtxundo, view) ← updateCoinsAll nHeight view vtx
    return (txundo :: vtxundo, view)

end Block

end MutableBitcoin
