import MutableBitcoin.CheckBlock
import MutableBitcoin.Lib.WriteBack
import Mathlib.Data.List.AList

/-!
# The coins cache

`Coin` and `CCoinsViewCache` of `coins.h`. The cache lies over a base view and is filled on demand, so its const
methods change it too and return the view they leave.
-/

namespace MutableBitcoin
open Lib

/-- An output with its height; one without value and script is spent. -/
structure Coin where
  out : CTxOut
  fCoinBase : Bool
  nHeight : ℕ
deriving DecidableEq

namespace Coin

/-- The state of the default constructor and of `Clear`. -/
def empty : Coin := ⟨CTxOut.null, false, 0⟩

def isSpent (coin : Coin) : Bool := coin.out.isNull

end Coin

/-- A coin of a cache with its two flags. -/
structure CCoinsCacheEntry where
  coin : Coin
  dirty : Bool
  fresh : Bool
deriving DecidableEq

/-- Where the process ends. -/
inductive Crash where
  | assertion
  | logicError
  | runtimeError
deriving DecidableEq

/-- A check that fails, or the end of the process. -/
inductive Failure where
  | reject (r : Reject)
  | crash (c : Crash)

def Failure.isCrash : Failure → Bool
  | .reject _ => false
  | .crash _ => true

/-- `assert(c)`. -/
def assertThat (c : Bool) : Except Failure Unit := if c then .ok () else .error (.crash .assertion)

def failIf (c : Bool) (nDoS : ℕ) (reason : String) (corruption : Bool) : Except Failure Unit :=
  if c then .error (.reject ⟨nDoS, reason, corruption⟩) else .ok ()

/-- The base view answers `GetCoin`. -/
structure CCoinsViewCache where
  base : COutPoint → Option Coin
  cacheCoins : COutPoint → Option CCoinsCacheEntry

namespace CCoinsViewCache

variable (view : CCoinsViewCache)

/-- The entry that `FetchCoin` finds. -/
def lookup (outpoint : COutPoint) : Option CCoinsCacheEntry :=
  match view.cacheCoins outpoint with
  | some entry => some entry
  | none => (view.base outpoint).map (fun tmp => ⟨tmp, false, tmp.isSpent⟩)

/-- The cache that `FetchCoin` leaves. -/
def fetchCoin (outpoint : COutPoint) : CCoinsViewCache :=
  { view with cacheCoins := Function.update view.cacheCoins outpoint (view.lookup outpoint) }

def accessCoin (outpoint : COutPoint) : Coin :=
  match view.lookup outpoint with
  | none => Coin.empty
  | some entry => entry.coin

def haveCoin (outpoint : COutPoint) : Bool :=
  match view.lookup outpoint with
  | none => false
  | some entry => !entry.coin.isSpent

def addCoin (outpoint : COutPoint) (coin : Coin) (possible_overwrite : Bool) :
    Except Failure CCoinsViewCache :=
  if coin.isSpent then .error (.crash .assertion)
  else if CScript.isUnspendable coin.out.scriptPubKey then .ok view
  else
    let entry := (view.cacheCoins outpoint).getD ⟨Coin.empty, false, false⟩
    if !possible_overwrite && !entry.coin.isSpent then .error (.crash .logicError)
    else
      let fresh := !possible_overwrite && !entry.dirty
      let after : CCoinsCacheEntry := ⟨coin, true, entry.fresh || fresh⟩
      .ok { view with cacheCoins := Function.update view.cacheCoins outpoint (some after) }

/-- The coin moved out and the cache, `none` if there is no entry. -/
def spendCoin (outpoint : COutPoint) : Option (Coin × CCoinsViewCache) :=
  match view.lookup outpoint with
  | none => none
  | some entry =>
    let after := if entry.fresh then none else some ⟨Coin.empty, true, entry.fresh⟩
    some (entry.coin, { view with cacheCoins := Function.update view.cacheCoins outpoint after })

/-- Every input is fetched, up to the first that is missing. -/
def haveInputs : CCoinsViewCache → List CTxIn → CCoinsViewCache × Bool
  | view, [] => (view, true)
  | view, txin :: vin =>
    if view.haveCoin txin.prevout then haveInputs (view.fetchCoin txin.prevout) vin
    else (view.fetchCoin txin.prevout, false)

/-- The loops that call `AccessCoin` for every input: the coins and the cache. -/
def accessCoins : CCoinsViewCache → List CTxIn → CCoinsViewCache × List Coin
  | view, [] => (view, [])
  | view, txin :: vin =>
    let (view', coins) := accessCoins (view.fetchCoin txin.prevout) vin
    (view', view.accessCoin txin.prevout :: coins)

def getValueIn (vin : List CTxIn) : CCoinsViewCache × CAmount :=
  let (view, coins) := view.accessCoins vin
  (view, coins.foldl (fun nResult coin => nResult + coin.out.nValue) 0)

/-- Spends the inputs in order and returns the undo data; `assert(is_spent)`. -/
def spendInputs : CCoinsViewCache → List CTxIn → Except Failure (List Coin × CCoinsViewCache)
  | view, [] => .ok ([], view)
  | view, txin :: vin =>
    match view.spendCoin txin.prevout with
    | none => .error (.crash .assertion)
    | some (coin, view) => do
      let (vprevout, view) ← spendInputs view vin
      return (coin :: vprevout, view)

/-- `AddCoins` without `check`, from output `i` on. -/
def addCoins (txid : Uint256) (fCoinbase : Bool) (nHeight : ℕ) :
    CCoinsViewCache → ℕ → List CTxOut → Except Failure CCoinsViewCache
  | view, _, [] => .ok view
  | view, i, txout :: vout => do
    let view ← view.addCoin ⟨txid, UInt32.ofNat i⟩ ⟨txout, fCoinbase, nHeight⟩ fCoinbase
    addCoins txid fCoinbase nHeight view (i + 1) vout

section Fetch

variable {view}

@[ext] lemma ext {v w : CCoinsViewCache} (hb : v.base = w.base)
    (hc : ∀ o, v.cacheCoins o = w.cacheCoins o) : v = w := by
  cases v
  cases w
  simp only [mk.injEq]
  exact ⟨hb, funext hc⟩

lemma lookup_of_cached {o : COutPoint} {entry : CCoinsCacheEntry}
    (h : view.cacheCoins o = some entry) : view.lookup o = some entry := by
  simp [lookup, h]

lemma lookup_of_not_cached {o : COutPoint} (h : view.cacheCoins o = none) :
    view.lookup o = (view.base o).map (fun tmp => ⟨tmp, false, tmp.isSpent⟩) := by
  simp [lookup, h]

lemma lookup_fetchCoin (view : CCoinsViewCache) (o o' : COutPoint) :
    (view.fetchCoin o).lookup o' = view.lookup o' := by
  by_cases h : o' = o
  · subst h
    cases hl : view.lookup o' with
    | none =>
      have hb : view.base o' = none := by
        unfold lookup at hl
        split at hl
        · simp at hl
        · simpa using hl
      rw [lookup_of_not_cached (by simp [fetchCoin, hl])]
      simp [fetchCoin, hb]
    | some entry => exact lookup_of_cached (by simp [fetchCoin, hl])
  · simp [fetchCoin, lookup, h]

def fetchAll (view : CCoinsViewCache) (vin : List CTxIn) : CCoinsViewCache :=
  vin.foldl (fun v txin => v.fetchCoin txin.prevout) view

@[simp] lemma base_fetchAll (view : CCoinsViewCache) (vin : List CTxIn) :
    (view.fetchAll vin).base = view.base := by
  induction vin generalizing view with
  | nil => rfl
  | cons txin vin ih => exact ih (view.fetchCoin txin.prevout)

@[simp] lemma lookup_fetchAll (view : CCoinsViewCache) (vin : List CTxIn) (o : COutPoint) :
    (view.fetchAll vin).lookup o = view.lookup o := by
  induction vin generalizing view with
  | nil => rfl
  | cons txin vin ih => exact (ih _).trans (lookup_fetchCoin view txin.prevout o)

lemma cacheCoins_fetchAll (view : CCoinsViewCache) (vin : List CTxIn) (o : COutPoint) :
    (view.fetchAll vin).cacheCoins o =
      if o ∈ vin.map (·.prevout) then view.lookup o else view.cacheCoins o := by
  induction vin generalizing view with
  | nil => rfl
  | cons txin vin ih =>
    have h := ih (view.fetchCoin txin.prevout)
    rw [lookup_fetchCoin] at h
    refine h.trans ?_
    by_cases ho : o = txin.prevout
    · subst ho
      simp [fetchCoin]
    · simp [fetchCoin, ho]

@[simp] lemma fetchAll_fetchAll (view : CCoinsViewCache) (vin : List CTxIn) :
    (view.fetchAll vin).fetchAll vin = view.fetchAll vin := by
  apply ext
  · simp
  · intro o
    rw [cacheCoins_fetchAll, cacheCoins_fetchAll, lookup_fetchAll]
    split_ifs <;> rfl

@[simp] lemma accessCoin_fetchAll (view : CCoinsViewCache) (vin : List CTxIn) (o : COutPoint) :
    (view.fetchAll vin).accessCoin o = view.accessCoin o := by
  simp [accessCoin]

@[simp] lemma haveCoin_fetchAll (view : CCoinsViewCache) (vin : List CTxIn) (o : COutPoint) :
    (view.fetchAll vin).haveCoin o = view.haveCoin o := by
  simp [haveCoin]

lemma accessCoin_fetchCoin (view : CCoinsViewCache) (o o' : COutPoint) :
    (view.fetchCoin o).accessCoin o' = view.accessCoin o' := by
  simp [accessCoin, lookup_fetchCoin]

lemma haveCoin_fetchCoin (view : CCoinsViewCache) (o o' : COutPoint) :
    (view.fetchCoin o).haveCoin o' = view.haveCoin o' := by
  simp [haveCoin, lookup_fetchCoin]

lemma accessCoins_eq (view : CCoinsViewCache) (vin : List CTxIn) :
    view.accessCoins vin =
      (view.fetchAll vin, vin.map (fun txin => view.accessCoin txin.prevout)) := by
  induction vin generalizing view with
  | nil => rfl
  | cons txin vin ih =>
    simp only [accessCoins, ih, accessCoin_fetchCoin, List.map_cons]
    rfl

lemma haveInputs_of_have {vin : List CTxIn} (h : ∀ txin ∈ vin, view.haveCoin txin.prevout) :
    view.haveInputs vin = (view.fetchAll vin, true) := by
  induction vin generalizing view with
  | nil => rfl
  | cons txin vin ih =>
    rw [haveInputs, if_pos (h txin (by simp)), ih]
    · rfl
    · intro t ht
      rw [haveCoin_fetchCoin]
      exact h t (by simp [ht])

lemma haveInputs_of_not_have {vin : List CTxIn} (h : ¬∀ txin ∈ vin, view.haveCoin txin.prevout) :
    (view.haveInputs vin).2 = false := by
  induction vin generalizing view with
  | nil => simp at h
  | cons txin vin ih =>
    unfold haveInputs
    by_cases hc : view.haveCoin txin.prevout
    · rw [if_pos hc]
      apply ih
      intro hall
      apply h
      intro t ht
      rcases List.mem_cons.mp ht with rfl | ht
      · exact hc
      · rw [← haveCoin_fetchCoin view txin.prevout]
        exact hall t ht
    · rw [if_neg hc]

lemma isSpent_accessCoin {o : COutPoint} (h : view.haveCoin o) : (view.accessCoin o).isSpent = false := by
  unfold haveCoin at h
  unfold accessCoin
  split at h <;> simp_all

end Fetch

end CCoinsViewCache

section UpdateCoins

variable {sha256 : Bytes → Uint256}

def updateCoins (view : CCoinsViewCache) (tx : CTransaction sha256) (nHeight : ℕ) :
    Except Failure (List Coin × CCoinsViewCache) := do
  let (txundo, view) ← (if tx.isCoinBase then .ok ([], view) else view.spendInputs tx.vin)
  let view ← view.addCoins tx.hash tx.isCoinBase nHeight 0 tx.vout
  return (txundo, view)

end UpdateCoins

/-!
## Stacks of coins caches

Caches of `coins.cpp` that lie over each other and over a base view. `BatchWrite` moves the dirty entries of a cache
into the one below.
-/

abbrev CCoinsMap := AList (fun _ : COutPoint => CCoinsCacheEntry)

/-- The members of one `CCoinsViewCache`. -/
structure CoinsLayer where
  cacheCoins : CCoinsMap
  cachedCoinsUsage : ℕ

/-- `MallocUsage` with pointers of eight bytes. -/
def mallocUsage (alloc : ℕ) : ℕ := if alloc = 0 then 0 else ((alloc + 31) >>> 4) <<< 4

/-- Scripts of up to 28 bytes are stored in place; a longer script that is copied or read allocates
its size. -/
def Coin.dynamicMemoryUsage (coin : Coin) : ℕ :=
  if coin.out.scriptPubKey.length ≤ 28 then 0 else mallocUsage coin.out.scriptPubKey.length

def Coin.unspent (coin : Coin) : Option Coin := if coin.isSpent then none else some coin

namespace CoinsLayer

def empty : CoinsLayer := ⟨∅, 0⟩

variable (layer : CoinsLayer)

def set (o : COutPoint) (entry : CCoinsCacheEntry) (usage : ℕ) : CoinsLayer :=
  ⟨layer.cacheCoins.insert o entry, usage⟩

def erase (o : COutPoint) (usage : ℕ) : CoinsLayer := ⟨layer.cacheCoins.erase o, usage⟩

/-- `FetchCoin`; `below` is what `base->GetCoin` returns, and the caches below after this call. The
call is only made if there is no entry. -/
def fetch (o : COutPoint) (layers : List CoinsLayer) (below : List CoinsLayer × Option Coin) :
    List CoinsLayer × Option CCoinsCacheEntry :=
  match layer.cacheCoins.lookup o with
  | some entry => (layer :: layers, some entry)
  | none =>
    match below with
    | (layers, none) => (layer :: layers, none)
    | (layers, some tmp) =>
      let entry : CCoinsCacheEntry := ⟨tmp, false, tmp.isSpent⟩
      (layer.set o entry (layer.cachedCoinsUsage + tmp.dynamicMemoryUsage) :: layers, some entry)

def addCoin (o : COutPoint) (coin : Coin) (possible_overwrite : Bool) : Except Failure CoinsLayer :=
  if coin.isSpent then .error (.crash .assertion)
  else if CScript.isUnspendable coin.out.scriptPubKey then .ok layer
  else
    let found := layer.cacheCoins.lookup o
    let entry := found.getD ⟨Coin.empty, false, false⟩
    let usage := if found.isSome then layer.cachedCoinsUsage - entry.coin.dynamicMemoryUsage
      else layer.cachedCoinsUsage
    if !possible_overwrite && !entry.coin.isSpent then .error (.crash .logicError)
    else
      let fresh := !possible_overwrite && !entry.dirty
      .ok (layer.set o ⟨coin, true, entry.fresh || fresh⟩ (usage + coin.dynamicMemoryUsage))

/-- What `SpendCoin` does with the entry it has found. -/
def spend (o : COutPoint) (entry : CCoinsCacheEntry) : CoinsLayer :=
  let usage := layer.cachedCoinsUsage - entry.coin.dynamicMemoryUsage
  if entry.fresh then layer.erase o usage else layer.set o ⟨Coin.empty, true, entry.fresh⟩ usage

def uncache (o : COutPoint) : CoinsLayer :=
  match layer.cacheCoins.lookup o with
  | none => layer
  | some entry =>
    if !entry.dirty && !entry.fresh then
      layer.erase o (layer.cachedCoinsUsage - entry.coin.dynamicMemoryUsage)
    else layer

/-- One round of `BatchWrite`, with an entry of the cache above. -/
def batchWriteEntry (kv : Sigma fun _ : COutPoint => CCoinsCacheEntry) : Except Failure CoinsLayer :=
  let ⟨o, child⟩ := kv
  if !child.dirty then .ok layer
  else match layer.cacheCoins.lookup o with
    | none =>
      if child.fresh && child.coin.isSpent then .ok layer
      else .ok (layer.set o ⟨child.coin, true, child.fresh⟩
        (layer.cachedCoinsUsage + child.coin.dynamicMemoryUsage))
    | some us =>
      if child.fresh && !us.coin.isSpent then .error (.crash .logicError)
      else
        let usage := layer.cachedCoinsUsage - us.coin.dynamicMemoryUsage
        if us.fresh && child.coin.isSpent then .ok (layer.erase o usage)
        else .ok (layer.set o ⟨child.coin, true, us.fresh⟩ (usage + child.coin.dynamicMemoryUsage))

/-- `BatchWrite`, with the entries in the order in which the map of the cache above is walked. -/
def batchWrite (mapCoins : List (Sigma fun _ : COutPoint => CCoinsCacheEntry)) : Except Failure CoinsLayer :=
  mapCoins.foldlM batchWriteEntry layer

end CoinsLayer

/-- `BatchWrite` of the base view: the database erases spent coins, other views may keep them. -/
def writeBase (keep : COutPoint → Bool) (base : COutPoint → Option Coin)
    (mapCoins : List (Sigma fun _ : COutPoint => CCoinsCacheEntry)) : COutPoint → Option Coin :=
  mapCoins.foldl (fun base kv =>
    if !kv.2.dirty then base
    else Function.update base kv.1
      (if kv.2.coin.isSpent && !keep kv.1 then none else some kv.2.coin)) base

/-- A base view with caches over it, the top one first. -/
structure CoinsStack where
  base : COutPoint → Option Coin
  layers : List CoinsLayer

section Reads

variable (base : COutPoint → Option Coin)

/-- `GetCoin`: what is returned, and the caches afterwards. -/
def getCoin : List CoinsLayer → COutPoint → List CoinsLayer × Option Coin
  | [], o => ([], base o)
  | layer :: layers, o =>
    let (layers, entry) := layer.fetch o layers (getCoin layers o)
    (layers, entry.bind (fun entry => entry.coin.unspent))

/-- `FetchCoin` of the top cache. -/
def fetchCoin : List CoinsLayer → COutPoint → List CoinsLayer × Option CCoinsCacheEntry
  | [], _ => ([], none)
  | layer :: layers, o => layer.fetch o layers (getCoin base layers o)

end Reads

namespace CoinsStack

def haveCoin (st : CoinsStack) (o : COutPoint) : CoinsStack × Bool :=
  let (layers, entry) := fetchCoin st.base st.layers o
  (⟨st.base, layers⟩, entry.elim false (fun entry => !entry.coin.isSpent))

def accessCoin (st : CoinsStack) (o : COutPoint) : CoinsStack × Coin :=
  let (layers, entry) := fetchCoin st.base st.layers o
  (⟨st.base, layers⟩, entry.elim Coin.empty (fun entry => entry.coin))

def addCoin (st : CoinsStack) (o : COutPoint) (coin : Coin) (possible_overwrite : Bool) :
    Except Failure CoinsStack :=
  match st.layers with
  | [] => .ok st
  | layer :: layers => do
    let layer ← layer.addCoin o coin possible_overwrite
    return ⟨st.base, layer :: layers⟩

/-- Returns the coin moved out, `none` if there is no entry. -/
def spendCoin (st : CoinsStack) (o : COutPoint) : CoinsStack × Option Coin :=
  match fetchCoin st.base st.layers o with
  | (layer :: layers, some entry) => (⟨st.base, layer.spend o entry :: layers⟩, some entry.coin)
  | (layers, _) => (⟨st.base, layers⟩, none)

def uncache (st : CoinsStack) (i : ℕ) (o : COutPoint) : CoinsStack :=
  ⟨st.base, st.layers.modify i (fun layer => layer.uncache o)⟩

/-- `Flush` of a cache whose entries are walked in the order `mapCoins`. -/
def flushLayers (keep : COutPoint → Bool) (mapCoins : List (Sigma fun _ : COutPoint => CCoinsCacheEntry))
    (base : COutPoint → Option Coin) : List CoinsLayer → ℕ → Except Failure CoinsStack
  | [], _ => .ok ⟨base, []⟩
  | [_], 0 => .ok ⟨writeBase keep base mapCoins, [CoinsLayer.empty]⟩
  | _ :: parent :: layers, 0 => do
    let parent ← parent.batchWrite mapCoins
    return ⟨base, CoinsLayer.empty :: parent :: layers⟩
  | layer :: layers, i + 1 => do
    let st ← flushLayers keep mapCoins base layers i
    return ⟨st.base, layer :: st.layers⟩

def flush (st : CoinsStack) (i : ℕ) (keep : COutPoint → Bool)
    (mapCoins : List (Sigma fun _ : COutPoint => CCoinsCacheEntry)) : Except Failure CoinsStack :=
  flushLayers keep mapCoins st.base st.layers i

end CoinsStack

end MutableBitcoin
