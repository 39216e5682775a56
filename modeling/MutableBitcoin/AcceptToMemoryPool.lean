import MutableBitcoin.FixedPoint
import MutableBitcoin.MempoolInvariant
import MutableBitcoin.SignatureChecker

/-!
# Acceptance to the memory pool

`AcceptToMemoryPoolWorker` of `validation.cpp`. A transaction is checked on its own, against the coins of the tip
and the pool, against the limits on fees and chains, and against the entries it replaces.
-/

namespace MutableBitcoin
open Lib Finset CTxMemPool

def REJECT_INVALID : ℕ := 0x10
def REJECT_DUPLICATE : ℕ := 0x12
def REJECT_NONSTANDARD : ℕ := 0x40
def REJECT_INSUFFICIENTFEE : ℕ := 0x42
def REJECT_HIGHFEE : ℕ := 0x100

def MAX_STANDARD_TX_SIGOPS_COST : ℕ := MAX_BLOCK_SIGOPS_COST / 5
def MAX_BIP125_RBF_SEQUENCE : UInt32 := 0xfffffffd
def MEMPOOL_HEIGHT : ℕ := 0x7fffffff
def maxDescendantsToVisit : ℤ := 100

/-- What a `CValidationState` says of a rejected transaction. -/
structure TxReject where
  nDoS : ℕ
  chRejectCode : ℕ
  strRejectReason : String
  corruptionPossible : Bool
  strDebugMessage : String
deriving DecidableEq

/-- The ways to fail: the state is filled in, inputs are missing, `error`, or the process ends. -/
inductive AcceptError where
  | invalid (state : TxReject)
  | missingInputs
  | bug
  | crash (c : Crash)
deriving DecidableEq

section Fees

/-- A fee in satoshis for 1000 bytes. -/
structure CFeeRate where
  nSatoshisPerK : ℤ

namespace CFeeRate

def ofFee (nFeePaid nSize : ℤ) : CFeeRate := ⟨if 0 < nSize then (nFeePaid * 1000).tdiv nSize else 0⟩

def getFee (rate : CFeeRate) (nSize : ℤ) : ℤ :=
  let nFee := (rate.nSatoshisPerK * nSize).tdiv 1000
  if nFee = 0 ∧ nSize ≠ 0 then
    if 0 < rate.nSatoshisPerK then 1 else if rate.nSatoshisPerK < 0 then -1 else nFee
  else nFee

end CFeeRate

/-- `%08d`. -/
def formatPadded (n : ℤ) : String :=
  let digits := toString n.natAbs
  if n < 0 then "-" ++ "".pushn '0' (7 - digits.length) ++ digits else "".pushn '0' (8 - digits.length) ++ digits

def CFeeRate.toText (rate : CFeeRate) : String :=
  toString (rate.nSatoshisPerK.tdiv COIN.toInt) ++ "." ++ formatPadded (rate.nSatoshisPerK.tmod COIN.toInt) ++ " BTC/kB"

/-- `FormatMoney`. Amounts from `-2^63` down have no text. -/
def formatMoney (n : ℤ) : String :=
  match formatMoneyText n with
  | .ok text => String.ofList text
  | .error _ => ""

end Fees

variable {sha256 : Bytes → Uint256}

/-- The arguments, settings and policy checks that the acceptance reads. -/
structure AcceptContext (sha256 : Bytes → Uint256) where
  fLimitFree : Bool
  nAcceptTime : ℤ
  fOverrideMempoolLimit : Bool
  nAbsurdFee : ℤ
  prematureWitness : Bool
  fRequireStandard : Bool
  fEnableReplacement : Bool
  witnessEnabled : Bool
  /-- The reason if a transaction is not standard. -/
  isStandardTx : CTransaction sha256 → Bool → Option String
  checkFinalTx : CTransaction sha256 → Bool
  checkSequenceLocks : CTxMemPool sha256 → CTransaction sha256 → Bool
  areInputsStandard : CTransaction sha256 → CCoinsViewCache → Bool
  isWitnessStandard : CTransaction sha256 → CCoinsViewCache → Bool
  /-- `GetCoin` of `pcoinsTip`. -/
  coinsTip : COutPoint → Option Coin
  haveCoinInCache : COutPoint → Bool
  /-- The memory that a transaction takes. -/
  nUsageSize : CTransaction sha256 → ℕ
  /-- `GetMinFee` of the pool. -/
  minFee : CFeeRate
  minRelayTxFee : CFeeRate
  incrementalRelayFee : CFeeRate
  limits : CTxMemPool.ChainLimits
  scriptVerifyFlags : UInt32
  currentBlockScriptVerifyFlags : UInt32
  /-- The state if an input check fails under some flags. -/
  checkInputs : CTransaction sha256 → CCoinsViewCache → UInt32 → Option TxReject
  /-- `GetTime() - age`. -/
  expiryTime : ℤ
  sizelimit : ℕ
  /-- The first entry in the order of `descendant_score`. -/
  lowest : CTxMemPool sha256 → Uint256
  dynamicMemoryUsage : CTxMemPool sha256 → ℕ

/-- What the checks hand to the steps that change the pool. -/
structure AcceptPlan (sha256 : Bytes → Uint256) where
  entry : CTxMemPoolEntry sha256
  setAncestors : SetEntries
  allConflicting : SetEntries

namespace AcceptError

def dos (nDoS code : ℕ) (reason : String) (corruption : Bool) (debug : String) : AcceptError :=
  .invalid ⟨nDoS, code, reason, corruption, debug⟩

def ofFailure : Failure → AcceptError
  | .reject r => dos r.nDoS REJECT_INVALID r.strRejectReason r.corruptionPossible ""
  | .crash c => .crash c

def mempoolFull : AcceptError := dos 0 REJECT_INSUFFICIENTFEE "mempool full" false ""

end AcceptError

/-- `if (c) return …`. -/
def acceptUnless (c : Prop) [Decidable c] (e : AcceptError) : Except AcceptError Unit := if c then .error e else .ok ()

section Checks

variable (ctx : AcceptContext sha256) (pool : CTxMemPool sha256) (tx : CTransaction sha256)

def hashText (hash : Uint256) : String := String.ofList hash.getHex

def checkStandard : Except AcceptError Unit :=
  match ctx.isStandardTx tx ctx.witnessEnabled with
  | some reason => acceptUnless ctx.fRequireStandard (.dos 0 REJECT_NONSTANDARD reason false "")
  | none => .ok ()

/-- The checks that read the transaction alone. -/
def checkStandalone : Except AcceptError Unit := do
  (checkTransaction tx.toCMutableTransaction true).mapError (fun r => AcceptError.ofFailure (.reject r))
  acceptUnless tx.isCoinBase (.dos 100 REJECT_INVALID "coinbase" false "")
  acceptUnless (!ctx.prematureWitness && tx.hasWitness && !ctx.witnessEnabled)
    (.dos 0 REJECT_NONSTANDARD "no-witness-yet" true "")
  checkStandard ctx tx
  acceptUnless (!ctx.checkFinalTx tx) (.dos 0 REJECT_NONSTANDARD "non-final" false "")
  acceptUnless (tx.hash ∈ pool.mapTx) (.dos 0 REJECT_DUPLICATE "txn-already-in-mempool" false "")

def signalsReplacement (tx : CTransaction sha256) : Bool :=
  tx.vin.any (fun txin => txin.nSequence ≤ MAX_BIP125_RBF_SEQUENCE)

/-- The pool transactions that spend one of the inputs. -/
def findConflicts : List CTxIn → SetEntries → Except AcceptError SetEntries
  | [], setConflicts => .ok setConflicts
  | txin :: vin, setConflicts =>
    match pool.mapNextTx.lookup txin.prevout with
    | none => findConflicts vin setConflicts
    | some ptxConflicting =>
      if ptxConflicting.hash ∈ setConflicts then findConflicts vin setConflicts
      else if !(ctx.fEnableReplacement && signalsReplacement ptxConflicting) then
        .error (.dos 0 REJECT_DUPLICATE "txn-mempool-conflict" false "")
      else findConflicts vin (insert ptxConflicting.hash setConflicts)

/-- `CCoinsViewMemPool::GetCoin`. -/
def getCoinMemPool (outpoint : COutPoint) : Option Coin :=
  match pool.mapTx.lookup outpoint.hash with
  | some e => (e.tx.vout[outpoint.n.toNat]?).map (fun out => ⟨out, false, MEMPOOL_HEIGHT⟩)
  | none => ctx.coinsTip outpoint

/-- The view of the inputs and their total value. -/
def fetchInputs : Except AcceptError (CCoinsViewCache × CAmount) := do
  let fetched := CCoinsViewCache.haveInputs ⟨getCoinMemPool ctx pool, fun _ => none⟩ tx.vin
  acceptUnless (!fetched.2) (if (List.range tx.vout.length).any
      (fun out => ctx.haveCoinInCache ⟨tx.hash, UInt32.ofNat out⟩) then
    .dos 0 REJECT_DUPLICATE "txn-already-known" false "" else .missingInputs)
  let valued := fetched.1.getValueIn tx.vin
  return ({ valued.1 with base := fun _ => none }, valued.2)

/-- The entry of the transaction, once its inputs are there and final. -/
def buildEntry : Except AcceptError (CTxMemPoolEntry sha256 × CCoinsViewCache) := do
  let (view, nValueIn) ← fetchInputs ctx pool tx
  acceptUnless (!ctx.checkSequenceLocks pool tx) (.dos 0 REJECT_NONSTANDARD "non-BIP68-final" false "")
  acceptUnless (ctx.fRequireStandard && !ctx.areInputsStandard tx view)
    (.dos 0 REJECT_NONSTANDARD "bad-txns-nonstandard-inputs" false "")
  acceptUnless (tx.hasWitness && ctx.fRequireStandard && !ctx.isWitnessStandard tx view)
    (.dos 0 REJECT_NONSTANDARD "bad-witness-nonstandard" true "")
  let (view, nSigOpsCost) ← (getTransactionSigOpCost ⟨true, true⟩ view tx).mapError AcceptError.ofFailure
  let nValueOut ← (getValueOut 0 tx.vout).mapError AcceptError.ofFailure
  return (CTxMemPoolEntry.make tx (nValueIn.toInt - nValueOut.toInt) ctx.nAcceptTime nSigOpsCost (ctx.nUsageSize tx),
    view)

/-- `nModifiedFees`: the fee with the delta of `PrioritiseTransaction`. -/
def nModifiedFees (entry : CTxMemPoolEntry sha256) : ℤ :=
  entry.nFee + (pool.mapDeltas.lookup entry.tx.hash).getD 0

/-- The sigop limit and the fee limits. -/
def checkFees (entry : CTxMemPoolEntry sha256) : Except AcceptError Unit := do
  acceptUnless (MAX_STANDARD_TX_SIGOPS_COST < entry.sigOpCost)
    (.dos 0 REJECT_NONSTANDARD "bad-txns-too-many-sigops" false (toString entry.sigOpCost))
  let mempoolRejectFee := ctx.minFee.getFee entry.getTxSize
  acceptUnless (0 < mempoolRejectFee ∧ nModifiedFees pool entry < mempoolRejectFee)
    (.dos 0 REJECT_INSUFFICIENTFEE "mempool min fee not met" false
      (toString entry.nFee ++ " < " ++ toString mempoolRejectFee))
  acceptUnless (ctx.fLimitFree ∧ nModifiedFees pool entry < ctx.minRelayTxFee.getFee entry.getTxSize)
    (.dos 0 REJECT_INSUFFICIENTFEE "min relay fee not met" false "")
  acceptUnless (ctx.nAbsurdFee ≠ 0 ∧ ctx.nAbsurdFee < entry.nFee)
    (.dos 0 REJECT_HIGHFEE "absurdly-high-fee" false (toString entry.nFee ++ " > " ++ toString ctx.nAbsurdFee))

/-- The ancestors, none of which is a conflict. -/
def findAncestors (entry : CTxMemPoolEntry sha256) (setConflicts : SetEntries) : Except AcceptError SetEntries := do
  let setAncestors ← (CTxMemPool.calculateMemPoolAncestors pool ctx.limits entry true).mapError
    (fun e => .dos 0 REJECT_NONSTANDARD "too-long-mempool-chain" false (e.text ctx.limits))
  match setAncestors.inOrder.find? (· ∈ setConflicts) with
  | some hashAncestor => .error (.dos 10 REJECT_INVALID "bad-txns-spends-conflicting-tx" false
      (hashText tx.hash ++ " spends conflicting transaction " ++ hashText hashAncestor))
  | none => return setAncestors

/-- The variables of the loop over the conflicts. -/
structure ConflictScan where
  setIterConflicting : SetEntries
  setConflictsParents : SetEntries
  nConflictingCount : ℤ

/-- The loop body over `setIterConflicting`. -/
def scanConflict (entry : CTxMemPoolEntry sha256) (st : ConflictScan) (hashConflicting : Uint256) :
    Except AcceptError ConflictScan :=
  match pool.mapTx.lookup hashConflicting with
  | none => .ok st
  | some mi => do
    let newFeeRate := CFeeRate.ofFee (nModifiedFees pool entry) entry.getTxSize
    let oldFeeRate := CFeeRate.ofFee mi.getModifiedFee mi.getTxSize
    acceptUnless (newFeeRate.nSatoshisPerK ≤ oldFeeRate.nSatoshisPerK)
      (.dos 0 REJECT_INSUFFICIENTFEE "insufficient fee" false
        ("rejecting replacement " ++ hashText entry.tx.hash ++ "; new feerate " ++ newFeeRate.toText ++
          " <= old feerate " ++ oldFeeRate.toText))
    return ⟨insert hashConflicting st.setIterConflicting,
      st.setConflictsParents ∪ (mi.tx.vin.map (·.prevout.hash)).toFinset,
      st.nConflictingCount + mi.nCountWithDescendants⟩

def checkNewInputs (entry : CTxMemPoolEntry sha256) (setConflictsParents : SetEntries) : Except AcceptError Unit :=
  entry.tx.vin.zipIdx.forM (fun input => acceptUnless
    (input.1.prevout.hash ∉ setConflictsParents ∧ input.1.prevout.hash ∈ pool.mapTx)
    (.dos 0 REJECT_NONSTANDARD "replacement-adds-unconfirmed" false
      ("replacement " ++ hashText entry.tx.hash ++ " adds unconfirmed input, idx " ++ toString input.2)))

/-- The rules for replacing the conflicts. -/
def checkReplacement (entry : CTxMemPoolEntry sha256) (setConflicts : SetEntries) : Except AcceptError SetEntries :=
  if setConflicts = ∅ then .ok ∅
  else do
    let scan ← setConflicts.inOrder.foldlM (scanConflict pool entry) ⟨∅, ∅, 0⟩
    acceptUnless (maxDescendantsToVisit < scan.nConflictingCount)
      (.dos 0 REJECT_NONSTANDARD "too many potential replacements" false
        ("rejecting replacement " ++ hashText entry.tx.hash ++ "; too many potential replacements (" ++
          toString scan.nConflictingCount ++ " > " ++ toString maxDescendantsToVisit ++ ")\n"))
    let allConflicting := pool.descendantsOf scan.setIterConflicting
    let nConflictingFees := (allConflicting.inOrder.map (pool.valueAt (·.getModifiedFee))).sum
    checkNewInputs pool entry scan.setConflictsParents
    acceptUnless (nModifiedFees pool entry < nConflictingFees)
      (.dos 0 REJECT_INSUFFICIENTFEE "insufficient fee" false
        ("rejecting replacement " ++ hashText entry.tx.hash ++ ", less fees than conflicting txs; " ++
          formatMoney (nModifiedFees pool entry) ++ " < " ++ formatMoney nConflictingFees))
    let nDeltaFees := nModifiedFees pool entry - nConflictingFees
    acceptUnless (nDeltaFees < ctx.incrementalRelayFee.getFee entry.getTxSize)
      (.dos 0 REJECT_INSUFFICIENTFEE "insufficient fee" false
        ("rejecting replacement " ++ hashText entry.tx.hash ++ ", not enough additional fees to relay; " ++
          formatMoney nDeltaFees ++ " < " ++ formatMoney (ctx.incrementalRelayFee.getFee entry.getTxSize)))
    return allConflicting

/-- The scripts under the standard flags. -/
def checkStandardInputs (view : CCoinsViewCache) : Except AcceptError Unit :=
  match ctx.checkInputs tx view ctx.scriptVerifyFlags with
  | none => .ok ()
  | some state =>
    -- Only the witness may be missing, so the transaction itself may be fine.
    if !tx.hasWitness && (ctx.checkInputs tx view
          (ctx.scriptVerifyFlags &&& ~~~(SCRIPT_VERIFY_WITNESS ||| SCRIPT_VERIFY_CLEANSTACK))).isNone &&
        (ctx.checkInputs tx view (ctx.scriptVerifyFlags &&& ~~~SCRIPT_VERIFY_CLEANSTACK)).isSome then
      .error (.invalid { state with corruptionPossible := true })
    else .error (.invalid state)

/-- The assertion of `CheckInputsFromMempoolAndCache`. -/
def coinMatches (outpoint : COutPoint) (coin : Coin) : Bool :=
  match pool.mapTx.lookup outpoint.hash with
  | some e => e.tx.hash = outpoint.hash && outpoint.n.toNat < e.tx.vout.length &&
      e.tx.vout[outpoint.n.toNat]? = some coin.out
  | none =>
    let coinFromDisk := (ctx.coinsTip outpoint).getD Coin.empty
    !coinFromDisk.isSpent && coinFromDisk.out = coin.out

/-- The loop of `CheckInputsFromMempoolAndCache`; `false` if a coin is spent. -/
def checkCoinsMatch (view : CCoinsViewCache) : List CTxIn → Except AcceptError Bool
  | [] => .ok true
  | txin :: vin =>
    let coin := view.accessCoin txin.prevout
    if coin.isSpent then .ok false
    else if coinMatches ctx pool txin.prevout coin then checkCoinsMatch view vin
    else .error (.crash .assertion)

def checkCurrentInputs (view : CCoinsViewCache) : Except AcceptError Unit := do
  acceptUnless tx.isCoinBase (.crash .assertion)
  let available ← checkCoinsMatch ctx pool view tx.vin
  if available && (ctx.checkInputs tx view ctx.currentBlockScriptVerifyFlags).isNone then return
  acceptUnless (~~~ctx.scriptVerifyFlags &&& ctx.currentBlockScriptVerifyFlags = 0) .bug
  acceptUnless (ctx.checkInputs tx view MANDATORY_SCRIPT_VERIFY_FLAGS).isSome .bug

/-- `AcceptToMemoryPoolWorker` up to the store. -/
def acceptChecks : Except AcceptError (AcceptPlan sha256) := do
  checkStandalone ctx pool tx
  let setConflicts ← findConflicts ctx pool tx.vin ∅
  let built ← buildEntry ctx pool tx
  checkFees ctx pool built.1
  let setAncestors ← findAncestors ctx pool tx built.1 setConflicts
  let allConflicting ← checkReplacement ctx pool built.1 setConflicts
  checkStandardInputs ctx tx built.2
  checkCurrentInputs ctx pool tx built.2
  return ⟨built.1, setAncestors, allConflicting⟩

end Checks

section Accept

def limitMempoolSize (ctx : AcceptContext sha256) (pool : CTxMemPool sha256) : Option (CTxMemPool sha256) := do
  let pool ← pool.expire ctx.expiryTime
  pool.trimToSize ctx.lowest ctx.dynamicMemoryUsage ctx.sizelimit

/-- The changes of the pool; `none` where an assertion of the pool fails. -/
def acceptCommit (ctx : AcceptContext sha256) (pool : CTxMemPool sha256) (plan : AcceptPlan sha256) :
    Option (Except AcceptError Unit × CTxMemPool sha256) := do
  let pool ← pool.removeStaged plan.allConflicting false
  let pool ← pool.addUnchecked plan.entry plan.setAncestors
  if ctx.fOverrideMempoolLimit then return (.ok (), pool)
  let pool ← limitMempoolSize ctx pool
  if plan.entry.tx.hash ∈ pool.mapTx then return (.ok (), pool)
  return (.error .mempoolFull, pool)

def acceptToMemoryPoolWorker (ctx : AcceptContext sha256) (pool : CTxMemPool sha256) (tx : CTransaction sha256) :
    Option (Except AcceptError Unit × CTxMemPool sha256) :=
  match acceptChecks ctx pool tx with
  | .error e => some (.error e, pool)
  | .ok plan => acceptCommit ctx pool plan

end Accept

end MutableBitcoin

/-!
## What the checks of a transaction establish

No ancestor is a conflict, and so no ancestor is among the entries that are replaced.
-/

namespace MutableBitcoin
open Lib Finset CTxMemPool

variable {sha256 : Bytes → Uint256} {ctx : AcceptContext sha256} {pool : CTxMemPool sha256}
  {tx : CTransaction sha256}

lemma acceptUnless_ok_iff {c : Prop} [Decidable c] {e : AcceptError} : acceptUnless c e = .ok () ↔ ¬ c := by
  unfold acceptUnless
  split_ifs with h
  · simp [h]
  · simp [h]

lemma mapError_eq_ok_iff {ε ε' α : Type} {x : Except ε α} {f : ε → ε'} {a : α} :
    x.mapError f = .ok a ↔ x = .ok a := by
  cases x with
  | error e => simp [Except.mapError]
  | ok b => simp [Except.mapError]

section Conflicts

def CTxMemPool.conflictsOf (pool : CTxMemPool sha256) (vin : List CTxIn) : SetEntries :=
  (vin.filterMap (fun txin => (pool.mapNextTx.lookup txin.prevout).map (·.hash))).toFinset

lemma mem_conflictsOf {vin : List CTxIn} {it : Uint256} :
    it ∈ pool.conflictsOf vin ↔
      ∃ txin ∈ vin, ∃ ptx, pool.mapNextTx.lookup txin.prevout = some ptx ∧ ptx.hash = it := by
  rw [conflictsOf, List.mem_toFinset, List.mem_filterMap]
  simp only [Option.map_eq_some_iff]

lemma findConflicts_ok {vin : List CTxIn} {s setConflicts : SetEntries}
    (h : findConflicts ctx pool vin s = .ok setConflicts) : setConflicts = s ∪ pool.conflictsOf vin := by
  induction vin generalizing s with
  | nil =>
    obtain rfl := Except.ok.inj h
    simp [CTxMemPool.conflictsOf]
  | cons txin vin ih =>
    unfold findConflicts at h
    cases hnext : pool.mapNextTx.lookup txin.prevout with
    | none =>
      rw [hnext] at h
      rw [ih h]
      unfold CTxMemPool.conflictsOf
      rw [List.filterMap_cons, hnext]
      rfl
    | some ptx =>
      rw [hnext] at h
      dsimp only at h
      have hcons : pool.conflictsOf (txin :: vin) = insert ptx.hash (pool.conflictsOf vin) := by
        unfold CTxMemPool.conflictsOf
        rw [List.filterMap_cons, hnext]
        exact List.toFinset_cons
      split_ifs at h with hmem hopt
      · rw [ih h, hcons, union_insert, insert_eq_of_mem (mem_union_left _ hmem)]
      · rw [ih h, hcons, union_insert, insert_union]

lemma findConflicts_signals {vin : List CTxIn} {s setConflicts : SetEntries}
    (h : findConflicts ctx pool vin s = .ok setConflicts) {txin : CTxIn} (htxin : txin ∈ vin)
    {ptx : CTransaction sha256} (hnext : pool.mapNextTx.lookup txin.prevout = some ptx) :
    ptx.hash ∈ s ∨ ∃ txin' ∈ vin, ∃ ptx', pool.mapNextTx.lookup txin'.prevout = some ptx' ∧
      ptx'.hash = ptx.hash ∧ signalsReplacement ptx' = true := by
  induction vin generalizing s with
  | nil => cases htxin
  | cons txin₀ vin ih =>
    have hlater : ∀ s', findConflicts ctx pool vin s' = .ok setConflicts → txin ∈ vin → ptx.hash ∈ s' ∨
        ∃ txin' ∈ txin₀ :: vin, ∃ ptx', pool.mapNextTx.lookup txin'.prevout = some ptx' ∧
          ptx'.hash = ptx.hash ∧ signalsReplacement ptx' = true := by
      intro s' h' hmem
      obtain hs | ⟨txin', htxin', hptx'⟩ := ih h' hmem
      · exact Or.inl hs
      · exact Or.inr ⟨txin', List.mem_cons_of_mem _ htxin', hptx'⟩
    unfold findConflicts at h
    cases hnext₀ : pool.mapNextTx.lookup txin₀.prevout with
    | none =>
      rw [hnext₀] at h
      obtain rfl | hmem := List.mem_cons.mp htxin
      · rw [hnext] at hnext₀
        cases hnext₀
      · exact hlater s h hmem
    | some ptx₀ =>
      rw [hnext₀] at h
      dsimp only at h
      split_ifs at h with hknown hopt
      · obtain rfl | hmem := List.mem_cons.mp htxin
        · rw [hnext, Option.some.injEq] at hnext₀
          exact Or.inl (hnext₀ ▸ hknown)
        · exact hlater s h hmem
      · have hsignals : signalsReplacement ptx₀ = true := by
          rw [Bool.not_eq_true, Bool.not_eq_false', Bool.and_eq_true] at hopt
          exact hopt.2
        obtain rfl | hmem := List.mem_cons.mp htxin
        · rw [hnext, Option.some.injEq] at hnext₀
          exact Or.inr ⟨txin, List.mem_cons_self, ptx, hnext, rfl, hnext₀ ▸ hsignals⟩
        · obtain hs | hlate := hlater _ h hmem
          · obtain heq | hs := mem_insert.mp hs
            · exact Or.inr ⟨txin₀, List.mem_cons_self, ptx₀, hnext₀, heq.symm, hsignals⟩
            · exact Or.inl hs
          · exact Or.inr hlate

end Conflicts

section Replacement

variable {entry : CTxMemPoolEntry sha256}

lemma scanConflict_ok {st st' : ConflictScan} {hash : Uint256} (h : scanConflict pool entry st hash = .ok st') :
    st'.setIterConflicting = st.setIterConflicting ∪ ({hash} : SetEntries).filter (· ∈ pool.mapTx) := by
  unfold scanConflict at h
  cases hmi : pool.mapTx.lookup hash with
  | none =>
    rw [hmi] at h
    obtain rfl := Except.ok.inj h
    rw [filter_singleton, if_neg (Finmap.lookup_eq_none.mp hmi), union_empty]
  | some mi =>
    rw [hmi] at h
    obtain ⟨-, h⟩ := unit_bind_eq_ok_iff.mp h
    obtain rfl := Except.ok.inj h
    have hmem : hash ∈ pool.mapTx := Finmap.lookup_isSome.mp (by rw [hmi]; rfl)
    rw [filter_singleton, if_pos hmem, union_comm _ {hash}]
    rfl

lemma scanConflicts_ok {l : List Uint256} {st st' : ConflictScan}
    (h : l.foldlM (scanConflict pool entry) st = .ok st') :
    st'.setIterConflicting = st.setIterConflicting ∪ l.toFinset.filter (· ∈ pool.mapTx) := by
  induction l generalizing st with
  | nil =>
    obtain rfl := Except.ok.inj h
    simp
  | cons hash l ih =>
    rw [List.foldlM_cons] at h
    obtain ⟨mid, hmid, h⟩ := bind_eq_ok_iff.mp h
    rw [ih h, scanConflict_ok hmid, List.toFinset_cons, union_assoc, insert_eq, filter_union]

lemma checkReplacement_ok {setConflicts allConflicting : SetEntries}
    (h : checkReplacement ctx pool entry setConflicts = .ok allConflicting) :
    allConflicting = pool.descendantsOf (setConflicts.filter (· ∈ pool.mapTx)) ∧
      (setConflicts ≠ ∅ → ∑ it ∈ allConflicting, pool.valueAt (·.getModifiedFee) it +
        ctx.incrementalRelayFee.getFee entry.getTxSize ≤ nModifiedFees pool entry) := by
  unfold checkReplacement at h
  split_ifs at h with hempty
  · obtain rfl := Except.ok.inj h
    rw [hempty]
    refine ⟨?_, fun hne => absurd rfl hne⟩
    rw [filter_empty]
    unfold CTxMemPool.descendantsOf SetEntries.inOrder
    rw [sort_empty]
    rfl
  · obtain ⟨scan, hscan, h⟩ := bind_eq_ok_iff.mp h
    obtain ⟨-, h⟩ := unit_bind_eq_ok_iff.mp h
    obtain ⟨-, h⟩ := unit_bind_eq_ok_iff.mp h
    obtain ⟨-, h⟩ := unit_bind_eq_ok_iff.mp h
    obtain ⟨hdelta, h⟩ := unit_bind_eq_ok_iff.mp h
    obtain rfl := Except.ok.inj h
    have hset := scanConflicts_ok hscan
    rw [toFinset_inOrder, empty_union] at hset
    rw [acceptUnless_ok_iff, sum_inOrder, not_lt] at hdelta
    refine ⟨by rw [hset], fun _ => ?_⟩
    linarith

end Replacement

section Plan

variable {plan : AcceptPlan sha256}

/-- What the checks have established about a plan. -/
structure PlanFits (ctx : AcceptContext sha256) (pool : CTxMemPool sha256) (tx : CTransaction sha256)
    (plan : AcceptPlan sha256) : Prop where
  entryTx : plan.entry.tx = tx
  fresh : plan.entry.Fresh
  new : tx.hash ∉ pool.mapTx
  ancestors : ∃ limits, CTxMemPool.calculateMemPoolAncestors pool limits plan.entry true = .ok plan.setAncestors
  disjoint : Disjoint plan.setAncestors (pool.conflictsOf tx.vin)
  conflicting : plan.allConflicting = pool.descendantsOf ((pool.conflictsOf tx.vin).filter (· ∈ pool.mapTx))
  signals : ∀ txin ∈ tx.vin, ∀ ptx, pool.mapNextTx.lookup txin.prevout = some ptx →
    ∃ txin' ∈ tx.vin, ∃ ptx', pool.mapNextTx.lookup txin'.prevout = some ptx' ∧ ptx'.hash = ptx.hash ∧
      signalsReplacement ptx' = true
  pays : pool.conflictsOf tx.vin ≠ ∅ → ∑ it ∈ plan.allConflicting, pool.valueAt (·.getModifiedFee) it +
    ctx.incrementalRelayFee.getFee plan.entry.getTxSize ≤ nModifiedFees pool plan.entry

lemma buildEntry_ok {built : CTxMemPoolEntry sha256 × CCoinsViewCache} (h : buildEntry ctx pool tx = .ok built) :
    built.1.tx = tx ∧ built.1.Fresh := by
  unfold buildEntry at h
  obtain ⟨fetched, -, h⟩ := bind_eq_ok_iff.mp h
  obtain ⟨-, h⟩ := unit_bind_eq_ok_iff.mp h
  obtain ⟨-, h⟩ := unit_bind_eq_ok_iff.mp h
  obtain ⟨-, h⟩ := unit_bind_eq_ok_iff.mp h
  obtain ⟨cost, -, h⟩ := bind_eq_ok_iff.mp h
  obtain ⟨nValueOut, -, h⟩ := bind_eq_ok_iff.mp h
  obtain rfl := Except.ok.inj h
  exact ⟨rfl, CTxMemPoolEntry.fresh_make _ _ _ _ _⟩

lemma checkStandalone_ok (h : checkStandalone ctx pool tx = .ok ()) : tx.hash ∉ pool.mapTx := by
  unfold checkStandalone at h
  obtain ⟨-, h⟩ := unit_bind_eq_ok_iff.mp h
  obtain ⟨-, h⟩ := unit_bind_eq_ok_iff.mp h
  obtain ⟨-, h⟩ := unit_bind_eq_ok_iff.mp h
  obtain ⟨-, h⟩ := unit_bind_eq_ok_iff.mp h
  obtain ⟨-, h⟩ := unit_bind_eq_ok_iff.mp h
  exact acceptUnless_ok_iff.mp h

lemma findAncestors_ok {entry : CTxMemPoolEntry sha256} {setConflicts setAncestors : SetEntries}
    (h : findAncestors ctx pool tx entry setConflicts = .ok setAncestors) :
    CTxMemPool.calculateMemPoolAncestors pool ctx.limits entry true = .ok setAncestors ∧
      Disjoint setAncestors setConflicts := by
  unfold findAncestors at h
  obtain ⟨found, hfound, h⟩ := bind_eq_ok_iff.mp h
  rw [mapError_eq_ok_iff] at hfound
  cases hfind : found.inOrder.find? (· ∈ setConflicts) with
  | some hashAncestor =>
    rw [hfind] at h
    cases h
  | none =>
    rw [hfind] at h
    obtain rfl := Except.ok.inj h
    refine ⟨hfound, ?_⟩
    rw [disjoint_left]
    intro it hit hconflict
    have hnone := List.find?_eq_none.mp hfind it (SetEntries.mem_inOrder.mpr hit)
    exact hnone (decide_eq_true hconflict)

theorem planFits_of_acceptChecks (h : acceptChecks ctx pool tx = .ok plan) : PlanFits ctx pool tx plan := by
  unfold acceptChecks at h
  obtain ⟨hstandalone, h⟩ := unit_bind_eq_ok_iff.mp h
  obtain ⟨setConflicts, hconflicts, h⟩ := bind_eq_ok_iff.mp h
  obtain ⟨built, hbuilt, h⟩ := bind_eq_ok_iff.mp h
  obtain ⟨-, h⟩ := unit_bind_eq_ok_iff.mp h
  obtain ⟨setAncestors, hancestors, h⟩ := bind_eq_ok_iff.mp h
  obtain ⟨allConflicting, hreplacement, h⟩ := bind_eq_ok_iff.mp h
  obtain ⟨-, h⟩ := unit_bind_eq_ok_iff.mp h
  obtain ⟨-, h⟩ := unit_bind_eq_ok_iff.mp h
  obtain rfl := Except.ok.inj h
  have hset := findConflicts_ok hconflicts
  rw [empty_union] at hset
  rw [hset] at hancestors hreplacement
  obtain ⟨htx, hfresh⟩ := buildEntry_ok hbuilt
  obtain ⟨hcalculated, hdisjoint⟩ := findAncestors_ok hancestors
  obtain ⟨hall, hpays⟩ := checkReplacement_ok hreplacement
  refine ⟨htx, hfresh, checkStandalone_ok hstandalone, ⟨ctx.limits, hcalculated⟩, hdisjoint, hall, ?_, hpays⟩
  intro txin htxin ptx hnext
  exact (findConflicts_signals hconflicts htxin hnext).resolve_left (notMem_empty _)

end Plan

section Commit

open CTxMemPool

variable {plan : AcceptPlan sha256} {mid : CTxMemPool sha256}

lemma PlanFits.conflicts_sub (h : Consistent pool) :
    (pool.conflictsOf tx.vin).filter (· ∈ pool.mapTx) = pool.conflictsOf tx.vin := by
  rw [filter_true_of_mem]
  intro it hit
  obtain ⟨txin, -, ptx, hnext, rfl⟩ := mem_conflictsOf.mp hit
  exact h.mem_of_next hnext

lemma conflictsOf_sub_keys (h : Consistent pool) : pool.conflictsOf tx.vin ⊆ pool.mapTx.keys := by
  intro it hit
  obtain ⟨txin, -, ptx, hnext, rfl⟩ := mem_conflictsOf.mp hit
  exact Finmap.mem_keys.mpr (h.mem_of_next hnext)

lemma PlanFits.mem_allConflicting (hfits : PlanFits ctx pool tx plan) (h : Consistent pool) {y : Uint256} :
    y ∈ plan.allConflicting ↔ ∃ x ∈ pool.conflictsOf tx.vin, Reaches pool.getMemPoolChildren x y := by
  rw [hfits.conflicting, PlanFits.conflicts_sub h, h.linked.mem_descendantsOf (conflictsOf_sub_keys h)]

lemma PlanFits.isAncestorSet (hfits : PlanFits ctx pool tx plan) (h : Consistent pool) :
    IsAncestorSet pool tx plan.setAncestors := by
  obtain ⟨limits, hcalculated⟩ := hfits.ancestors
  intro y
  rw [h.linked.mem_calculateMemPoolAncestors hcalculated, hfits.entryTx]

lemma PlanFits.ancestors_disjoint (hfits : PlanFits ctx pool tx plan) (h : Consistent pool) :
    Disjoint plan.setAncestors plan.allConflicting := by
  rw [disjoint_left]
  intro y hy hconflicting
  obtain ⟨x, hx, hreach⟩ := (hfits.mem_allConflicting h).mp hconflicting
  obtain ⟨p, hp, hyp⟩ := (hfits.isAncestorSet h y).mp hy
  have hxAncestor : x ∈ plan.setAncestors :=
    (hfits.isAncestorSet h x).mpr ⟨p, hp, Relation.ReflTransGen.trans hreach hyp⟩
  exact disjoint_left.mp hfits.disjoint hxAncestor hx

lemma PlanFits.removeStaged (hfits : PlanFits ctx pool tx plan) (h : Consistent pool) :
    ∃ mid, pool.removeStaged plan.allConflicting false = some mid ∧ Consistent mid ∧
      Removed pool mid plan.allConflicting false ∧ ClosedRemoval pool mid := by
  rw [hfits.conflicting, PlanFits.conflicts_sub h]
  obtain ⟨mid, hmid, hcons, hclosed, hremoved⟩ := h.removeDescendantsOf pool.mapDeltas (conflictsOf_sub_keys h)
    (fun _ _ _ => rfl)
  exact ⟨mid, hmid, hcons, hremoved, hclosed⟩

lemma PlanFits.free (hfits : PlanFits ctx pool tx plan) (h : Consistent pool)
    (hremoved : Removed pool mid plan.allConflicting false) :
    ∀ txin ∈ tx.vin, mid.mapNextTx.lookup txin.prevout = none := by
  intro txin htxin
  cases hnext : mid.mapNextTx.lookup txin.prevout with
  | none => rfl
  | some ptx =>
    have hold := hremoved.nextSub _ _ hnext
    obtain ⟨it, e, he, rfl, txin', htxin', heq⟩ := (h.next _ _).mp hold
    have hconflict : it ∈ pool.conflictsOf tx.vin :=
      mem_conflictsOf.mpr ⟨txin, htxin, e.tx, hold, h.linked.ids it e he⟩
    have hit : it ∈ plan.allConflicting :=
      (hfits.mem_allConflicting h).mpr ⟨it, hconflict, Relation.ReflTransGen.refl⟩
    have hgone := hremoved.nextGone it hit e he txin' htxin'
    rw [heq, hnext] at hgone
    cases hgone

lemma PlanFits.isAncestorSet_removed (hfits : PlanFits ctx pool tx plan) (h : Consistent pool)
    (hremoved : Removed pool mid plan.allConflicting false) : IsAncestorSet mid tx plan.setAncestors := by
  have hdisjoint := disjoint_left.mp (hfits.ancestors_disjoint h)
  have hclosed : ∀ x ∈ plan.allConflicting, pool.getMemPoolChildren x ⊆ plan.allConflicting := by
    intro x hx y hy
    rw [hfits.mem_allConflicting h] at hx ⊢
    obtain ⟨z, hz, hreach⟩ := hx
    exact ⟨z, hz, Relation.ReflTransGen.tail hreach hy⟩
  intro y
  constructor
  · intro hy
    obtain ⟨p, hp, hreach⟩ := (hfits.isAncestorSet h y).mp hy
    have hpAncestor : p ∈ plan.setAncestors :=
      (hfits.isAncestorSet h p).mpr ⟨p, hp, Relation.ReflTransGen.refl⟩
    have hpKept := hdisjoint hpAncestor
    rw [mem_parentsOf] at hp
    exact ⟨p, mem_parentsOf.mpr ⟨hp.1, hremoved.mem_iff.mpr ⟨hp.2, hpKept⟩⟩,
      avoidable_of_closed hremoved.links hclosed y p (hdisjoint hy) hpKept hreach⟩
  · rintro ⟨p, hp, hreach⟩
    rw [mem_parentsOf] at hp
    exact (hfits.isAncestorSet h y).mpr
      ⟨p, mem_parentsOf.mpr ⟨hp.1, (hremoved.mem_iff.mp hp.2).1⟩, hremoved.links.reaches hreach⟩

end Commit

end MutableBitcoin
