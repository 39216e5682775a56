import MutableBitcoin.AcceptToMemoryPool
import MutableBitcoin.Ancestors
import MutableBitcoin.ConnectSafety
import MutableBitcoin.MempoolIndex

/-!
# Lock points

`CheckSequenceLocks`, `TestLockPointValidity`, `CalculateSequenceLocks` and `EvaluateSequenceLocks`, and
`removeForReorg` which keeps their results. The coins at a tip are what the blocks of its branch leave.
-/

namespace MutableBitcoin
open Lib List Finmap

def SEQUENCE_LOCKTIME_GRANULARITY : UInt32 := 9
def LOCKTIME_VERIFY_SEQUENCE : Int32 := 1
def LOCKTIME_MEDIAN_TIME_PAST : Int32 := 2

/-- The heights and times that `CheckSequenceLocks` caches. -/
structure LockPoints (Ptr : Type) where
  height : ℤ
  time : ℤ
  maxInputBlock : Option Ptr
deriving DecidableEq

/-- Blocks with their transactions. The height of a block that would come next is an `int`. -/
structure MinedTree (sha256 : Bytes → Uint256) (Ptr : Type) extends IndexedTree Ptr where
  vtx : Ptr → List (CTransaction sha256)
  nHeight_lt : ∀ p, nHeight p < MEMPOOL_HEIGHT

section Coins

variable {sha256 : Bytes → Uint256}

def CTransaction.createdOutput (tx : CTransaction sha256) (o : COutPoint) : Option CTxOut :=
  if o.hash = tx.hash then (tx.vout[o.n.toNat]?).filter (fun txout => !CScript.isUnspendable txout.scriptPubKey)
  else none

def applyCoins (nHeight : ℕ) (coins : COutPoint → Option Coin) (tx : CTransaction sha256) :
    COutPoint → Option Coin := fun o =>
  match tx.createdOutput o with
  | some txout => some ⟨txout, tx.isCoinBase, nHeight⟩
  | none => if !tx.isCoinBase && tx.vin.any (fun txin => decide (txin.prevout = o)) then none else coins o

end Coins

namespace MinedTree

variable {sha256 : Bytes → Uint256} {Ptr : Type} (t : MinedTree sha256 Ptr)

/-- What `pcoinsTip` holds at the tip of a branch. The genesis block is not connected. -/
def coinsAt : List Ptr → COutPoint → Option Coin
  | p :: q :: rest => (t.vtx p).foldl (applyCoins (t.nHeight p)) (coinsAt (q :: rest))
  | _ => fun _ => none

section Source

variable (tip : Ptr) (pool : CTxMemPool sha256)

/-- `GetCoin` of `CCoinsViewMemPool`. -/
def getCoin (o : COutPoint) : Option Coin :=
  match pool.mapTx.lookup o.hash with
  | some e => (e.tx.vout[o.n.toNat]?).map (fun txout => ⟨txout, false, MEMPOOL_HEIGHT⟩)
  | none => t.coinsAt (t.lineage tip) o

/-- An element of `prevheights`. All mempool transactions are taken to confirm in the next block. -/
def prevHeight (o : COutPoint) : Option ℤ :=
  (t.getCoin tip pool o).map (fun coin =>
    if coin.nHeight = MEMPOOL_HEIGHT then (t.nHeight tip : ℤ) + 1 else coin.nHeight)

/-- The loop of `CalculateSequenceLocks`, with `prevHeights` as it leaves them. Below its own height the block
that would come next has the ancestors of the tip. No result where a null pointer is followed. -/
def sequenceLocksLoop : List CTxIn → List ℤ → ℤ → ℤ → Option (List ℤ × ℤ × ℤ)
  | txin :: vin, nCoinHeight :: prevHeights, nMinHeight, nMinTime =>
    if txin.nSequence &&& SEQUENCE_LOCKTIME_DISABLE_FLAG ≠ 0 then
      -- the height of this input is not relevant for sequence locks
      (sequenceLocksLoop vin prevHeights nMinHeight nMinTime).map (fun r => (0 :: r.1, r.2))
    else if txin.nSequence &&& SEQUENCE_LOCKTIME_TYPE_FLAG ≠ 0 then
      match t.getAncestor tip (max (nCoinHeight - 1) 0) with
      | none => none
      | some p =>
        let nCoinTime := t.getMedianTimePast p
        let nLockTime := ((txin.nSequence &&& SEQUENCE_LOCKTIME_MASK) <<< SEQUENCE_LOCKTIME_GRANULARITY).toNat
        (sequenceLocksLoop vin prevHeights nMinHeight (max nMinTime (nCoinTime + nLockTime - 1))).map
          (fun r => (nCoinHeight :: r.1, r.2))
    else
      let nLockHeight := (txin.nSequence &&& SEQUENCE_LOCKTIME_MASK).toNat
      (sequenceLocksLoop vin prevHeights (max nMinHeight (nCoinHeight + nLockHeight - 1)) nMinTime).map
        (fun r => (nCoinHeight :: r.1, r.2))
  | [], [], nMinHeight, nMinTime => some ([], nMinHeight, nMinTime)
  | _, _, _, _ => none

def fEnforceBIP68 (tx : CMutableTransaction) (flags : Int32) : Bool :=
  decide (2 ≤ tx.nVersion.toUInt32) && decide (flags &&& LOCKTIME_VERIFY_SEQUENCE ≠ 0)

def calculateSequenceLocks (tx : CMutableTransaction) (flags : Int32) (prevHeights : List ℤ) :
    Option (List ℤ × ℤ × ℤ) :=
  if fEnforceBIP68 tx flags then t.sequenceLocksLoop tip tx.vin prevHeights (-1) (-1)
  else some (prevHeights, -1, -1)

/-- `EvaluateSequenceLocks` for the block that would come next. -/
def evaluateSequenceLocks (lockPair : ℤ × ℤ) : Bool :=
  !(decide (lockPair.1 ≥ t.nHeight tip + 1) || decide (lockPair.2 ≥ t.getMedianTimePast tip))

def maxInputHeight (prevHeights : List ℤ) : ℤ :=
  prevHeights.foldl (fun m height => if height ≠ (t.nHeight tip : ℤ) + 1 then max m height else m) 0

/-- `CheckSequenceLocks` with the lock points that it leaves. -/
def checkSequenceLocks (tx : CMutableTransaction) (flags : Int32) (lp : LockPoints Ptr)
    (useExistingLockPoints : Bool) : Option (Bool × LockPoints Ptr) :=
  if useExistingLockPoints then some (t.evaluateSequenceLocks tip (lp.height, lp.time), lp)
  else
    match tx.vin.mapM (fun txin => t.prevHeight tip pool txin.prevout) with
    -- missing input
    | none => some (false, lp)
    | some prevheights =>
      match t.calculateSequenceLocks tip tx flags prevheights with
      | none => none
      | some (prevheights, lockPair) =>
        some (t.evaluateSequenceLocks tip lockPair,
          ⟨lockPair.1, lockPair.2, t.getAncestor tip (t.maxInputHeight tip prevheights)⟩)

def chainContains [DecidableEq Ptr] (pindex : Ptr) : Bool :=
  decide ((t.lineage tip).reverse[t.nHeight pindex]? = some pindex)

def testLockPointValidity [DecidableEq Ptr] (lp : LockPoints Ptr) : Bool :=
  match lp.maxInputBlock with
  | none => true
  | some b => t.chainContains tip b

def checkFinalTx (tx : CMutableTransaction) (flags : Int32) (adjustedTime : ℤ) : Bool :=
  let flags := if flags < 0 then 0 else flags
  isFinalTx tx (t.nHeight tip + 1)
    (if flags &&& LOCKTIME_MEDIAN_TIME_PAST ≠ 0 then t.getMedianTimePast tip else adjustedTime)

end Source

section CoinHeights

variable {t} {tip a b : Ptr} {pool : CTxMemPool sha256} {o : COutPoint} {coin : Coin}

variable (t) in
/-- The block has a transaction with this output; the genesis block has none. -/
def Creates (b : Ptr) (o : COutPoint) : Prop :=
  t.pprev b ≠ none ∧ ∃ tx ∈ t.vtx b, ∃ txout, tx.createdOutput o = some txout

lemma applyCoins_foldl {nHeight : ℕ} {vtx : List (CTransaction sha256)} {coins : COutPoint → Option Coin}
    (h : vtx.foldl (applyCoins nHeight) coins o = some coin) :
    (∃ tx ∈ vtx, ∃ txout, tx.createdOutput o = some txout) ∧ coin.nHeight = nHeight ∨
      (¬∃ tx ∈ vtx, ∃ txout, tx.createdOutput o = some txout) ∧ coins o = some coin := by
  induction vtx generalizing coins with
  | nil => exact Or.inr ⟨by simp, h⟩
  | cons tx vtx ih =>
    rw [foldl_cons] at h
    rcases ih h with ⟨⟨tx', htx', hout⟩, hheight⟩ | ⟨hnone, hcoin⟩
    · exact Or.inl ⟨⟨tx', mem_cons_of_mem _ htx', hout⟩, hheight⟩
    · unfold applyCoins at hcoin
      cases hcreated : tx.createdOutput o with
      | some txout =>
        rw [hcreated] at hcoin
        refine Or.inl ⟨⟨tx, mem_cons_self, txout, hcreated⟩, ?_⟩
        rw [← Option.some.inj hcoin]
      | none =>
        rw [hcreated] at hcoin
        refine Or.inr ⟨?_, (Option.ite_none_left_eq_some.mp hcoin).2⟩
        rintro ⟨tx', htx', txout, hout⟩
        rcases mem_cons.mp htx' with rfl | hmem
        · rw [hcreated] at hout
          cases hout
        · exact hnone ⟨tx', hmem, txout, hout⟩

lemma coinsAt_spec (h : t.coinsAt (t.lineage tip) o = some coin) :
    ∃ a ∈ t.lineage tip, t.nHeight a = coin.nHeight ∧ t.Creates a o ∧
      ∀ c ∈ t.lineage tip, t.Creates c o → t.nHeight c ≤ coin.nHeight := by
  induction tip using t.leveled.induction with
  | hroot b hb =>
    rw [t.lineage_eq, hb] at h
    cases h
  | hstep b p hb ih =>
    have hstep := t.leveled.step b p hb
    rw [t.lineage_eq b, hb, t.branch_some, t.lineage_eq p, coinsAt, ← t.lineage_eq p] at h
    rcases applyCoins_foldl h with ⟨hcreates, hheight⟩ | ⟨hnone, hcoin⟩
    · refine ⟨b, t.leveled.self_mem b, hheight.symm, ⟨by rw [hb]; simp, hcreates⟩, fun c hc _ => ?_⟩
      rw [hheight]
      exact t.leveled.depth_le hc
    · obtain ⟨a, ha, hheight, hcreates, hlast⟩ := ih hcoin
      refine ⟨a, (t.leveled.mem_step hb).mpr (Or.inr ha), hheight, hcreates, fun c hc hcc => ?_⟩
      rcases (t.leveled.mem_step hb).mp hc with rfl | hc
      · exact absurd hcc.2 hnone
      · exact hlast c hc hcc

lemma prevHeight_bounds {h : ℤ} (hh : t.prevHeight tip pool o = some h) : 0 ≤ h ∧ h ≤ t.nHeight tip + 1 := by
  obtain ⟨coin, hcoin, rfl⟩ := Option.map_eq_some_iff.mp hh
  split_ifs with hmem
  · omega
  · unfold getCoin at hcoin
    split at hcoin
    · obtain ⟨txout, -, rfl⟩ := Option.map_eq_some_iff.mp hcoin
      exact absurd rfl hmem
    · obtain ⟨a, ha, hheight, -⟩ := coinsAt_spec hcoin
      have := t.leveled.depth_le ha
      omega

lemma prevHeight_of_lookup_none (hpool : pool.mapTx.lookup o.hash = none) {h : ℤ}
    (hh : t.prevHeight tip pool o = some h) :
    ∃ a ∈ t.lineage tip, (t.nHeight a : ℤ) = h ∧ t.Creates a o ∧
      ∀ c ∈ t.lineage tip, t.Creates c o → (t.nHeight c : ℤ) ≤ h := by
  obtain ⟨coin, hcoin, rfl⟩ := Option.map_eq_some_iff.mp hh
  unfold getCoin at hcoin
  rw [hpool] at hcoin
  obtain ⟨a, ha, hheight, hcreates, hlast⟩ := coinsAt_spec hcoin
  have hlt := t.nHeight_lt a
  rw [if_neg (by omega)]
  exact ⟨a, ha, by omega, hcreates, fun c hc hcc => by have := hlast c hc hcc; omega⟩

lemma prevHeight_of_lookup_some {e : CTxMemPoolEntry sha256} (hpool : pool.mapTx.lookup o.hash = some e) {h : ℤ}
    (hh : t.prevHeight tip pool o = some h) : h = t.nHeight tip + 1 := by
  obtain ⟨coin, hcoin, rfl⟩ := Option.map_eq_some_iff.mp hh
  unfold getCoin at hcoin
  rw [hpool] at hcoin
  obtain ⟨txout, -, rfl⟩ := Option.map_eq_some_iff.mp hcoin
  exact if_pos rfl

end CoinHeights

section Locks

variable {t} {tip tip' : Ptr} {B C : ℤ} {txin : CTxIn} {h : ℤ}

variable (t) in
/-- The relative lock of an input has passed. -/
structure LockBelow (tip : Ptr) (B C : ℤ) (txin : CTxIn) (h : ℤ) : Prop where
  time : txin.nSequence &&& SEQUENCE_LOCKTIME_DISABLE_FLAG = 0 →
    txin.nSequence &&& SEQUENCE_LOCKTIME_TYPE_FLAG ≠ 0 → ∃ p, t.getAncestor tip (max (h - 1) 0) = some p ∧
      t.getMedianTimePast p +
        ((txin.nSequence &&& SEQUENCE_LOCKTIME_MASK) <<< SEQUENCE_LOCKTIME_GRANULARITY).toNat - 1 < C
  height : txin.nSequence &&& SEQUENCE_LOCKTIME_DISABLE_FLAG = 0 →
    txin.nSequence &&& SEQUENCE_LOCKTIME_TYPE_FLAG = 0 →
      h + (txin.nSequence &&& SEQUENCE_LOCKTIME_MASK).toNat - 1 < B

lemma sequenceLocksLoop_lt_iff {vin : List CTxIn} {hs hs' : List ℤ} {mh mt mh' mt' : ℤ}
    (hrun : t.sequenceLocksLoop tip vin hs mh mt = some (hs', mh', mt')) :
    mh' < B ∧ mt' < C ↔ (mh < B ∧ mt < C) ∧ List.Forall₂ (t.LockBelow tip B C) vin hs := by
  induction vin generalizing hs hs' mh mt with
  | nil =>
    cases hs with
    | nil =>
      cases hrun
      simp
    | cons h hs => cases hrun
  | cons txin vin ih =>
    cases hs with
    | nil => cases hrun
    | cons h hs =>
      rw [forall₂_cons]
      unfold sequenceLocksLoop at hrun
      split_ifs at hrun with hdisable htype
      · obtain ⟨r, hrest, heq⟩ := Option.map_eq_some_iff.mp hrun
        obtain ⟨rfl, rfl⟩ := Prod.mk.inj (Prod.mk.inj heq).2
        have hbelow : t.LockBelow tip B C txin h := ⟨fun h => absurd h hdisable, fun h => absurd h hdisable⟩
        rw [ih hrest]
        tauto
      · cases hp : t.getAncestor tip (max (h - 1) 0) with
        | none =>
          rw [hp] at hrun
          cases hrun
        | some p =>
          rw [hp] at hrun
          obtain ⟨r, hrest, heq⟩ := Option.map_eq_some_iff.mp hrun
          obtain ⟨rfl, rfl⟩ := Prod.mk.inj (Prod.mk.inj heq).2
          have hbelow : t.LockBelow tip B C txin h ↔ t.getMedianTimePast p +
              ((txin.nSequence &&& SEQUENCE_LOCKTIME_MASK) <<< SEQUENCE_LOCKTIME_GRANULARITY).toNat - 1 < C := by
            constructor
            · rintro ⟨htime, -⟩
              obtain ⟨p', hp', hlt⟩ := htime (not_not.mp hdisable) htype
              obtain rfl := Option.some.inj (hp.symm.trans hp')
              exact hlt
            · exact fun hlt => ⟨fun _ _ => ⟨p, hp, hlt⟩, fun _ h => absurd h htype⟩
          rw [ih hrest, hbelow, max_lt_iff]
          tauto
      · obtain ⟨r, hrest, heq⟩ := Option.map_eq_some_iff.mp hrun
        obtain ⟨rfl, rfl⟩ := Prod.mk.inj (Prod.mk.inj heq).2
        have hbelow : t.LockBelow tip B C txin h ↔
            h + (txin.nSequence &&& SEQUENCE_LOCKTIME_MASK).toNat - 1 < B := by
          constructor
          · exact fun hb => hb.height (not_not.mp hdisable) (not_not.mp htype)
          · exact fun hlt => ⟨fun _ h => absurd (not_not.mp htype) h, fun _ _ => hlt⟩
        rw [ih hrest, hbelow, max_lt_iff]
        tauto

lemma sequenceLocksLoop_heights {vin : List CTxIn} {hs : List ℤ} {mh mt : ℤ} {r : List ℤ × ℤ × ℤ}
    (hrun : t.sequenceLocksLoop tip vin hs mh mt = some r) :
    List.Forall₂ (fun txin h => txin.nSequence &&& SEQUENCE_LOCKTIME_DISABLE_FLAG = 0 → h ∈ r.1) vin hs := by
  induction vin generalizing hs mh mt r with
  | nil =>
    cases hs with
    | nil => exact List.Forall₂.nil
    | cons h hs => cases hrun
  | cons txin vin ih =>
    cases hs with
    | nil => cases hrun
    | cons h hs =>
      have hkept : ∀ {r' : List ℤ × ℤ × ℤ} {x : ℤ},
          List.Forall₂ (fun txin h => txin.nSequence &&& SEQUENCE_LOCKTIME_DISABLE_FLAG = 0 → h ∈ r'.1) vin hs →
          List.Forall₂ (fun txin h => txin.nSequence &&& SEQUENCE_LOCKTIME_DISABLE_FLAG = 0 → h ∈ x :: r'.1)
            vin hs :=
        fun hall => hall.imp fun _ _ hmem hdisable => mem_cons_of_mem _ (hmem hdisable)
      unfold sequenceLocksLoop at hrun
      split_ifs at hrun with hdisable htype
      · obtain ⟨r', hrest, rfl⟩ := Option.map_eq_some_iff.mp hrun
        exact List.Forall₂.cons (fun h => absurd h hdisable) (hkept (ih hrest))
      · cases hp : t.getAncestor tip (max (h - 1) 0) with
        | none =>
          rw [hp] at hrun
          cases hrun
        | some p =>
          rw [hp] at hrun
          obtain ⟨r', hrest, rfl⟩ := Option.map_eq_some_iff.mp hrun
          exact List.Forall₂.cons (fun _ => mem_cons_self) (hkept (ih hrest))
      · obtain ⟨r', hrest, rfl⟩ := Option.map_eq_some_iff.mp hrun
        exact List.Forall₂.cons (fun _ => mem_cons_self) (hkept (ih hrest))

lemma sequenceLocksLoop_heights_le {vin : List CTxIn} {hs : List ℤ} {mh mt : ℤ} {r : List ℤ × ℤ × ℤ}
    (hrun : t.sequenceLocksLoop tip vin hs mh mt = some r) (hle : ∀ h ∈ hs, h ≤ t.nHeight tip + 1) :
    ∀ h ∈ r.1, h ≤ t.nHeight tip + 1 := by
  induction vin generalizing hs mh mt r with
  | nil =>
    cases hs with
    | nil =>
      cases hrun
      exact hle
    | cons h hs => cases hrun
  | cons txin vin ih =>
    cases hs with
    | nil => cases hrun
    | cons h hs =>
      obtain ⟨hh, hrest⟩ := forall_mem_cons.mp hle
      unfold sequenceLocksLoop at hrun
      split_ifs at hrun with hdisable htype
      · obtain ⟨r', hrun', rfl⟩ := Option.map_eq_some_iff.mp hrun
        exact forall_mem_cons.mpr ⟨by omega, ih hrun' hrest⟩
      · cases hp : t.getAncestor tip (max (h - 1) 0) with
        | none =>
          rw [hp] at hrun
          cases hrun
        | some p =>
          rw [hp] at hrun
          obtain ⟨r', hrun', rfl⟩ := Option.map_eq_some_iff.mp hrun
          exact forall_mem_cons.mpr ⟨hh, ih hrun' hrest⟩
      · obtain ⟨r', hrun', rfl⟩ := Option.map_eq_some_iff.mp hrun
        exact forall_mem_cons.mpr ⟨hh, ih hrun' hrest⟩

lemma exists_sequenceLocksLoop {vin : List CTxIn} {hs : List ℤ} (hlen : vin.length = hs.length)
    (hbounds : ∀ h ∈ hs, 0 ≤ h ∧ h ≤ t.nHeight tip + 1) (mh mt : ℤ) :
    ∃ r, t.sequenceLocksLoop tip vin hs mh mt = some r := by
  induction vin generalizing hs mh mt with
  | nil =>
    obtain rfl := length_eq_zero_iff.mp hlen.symm
    exact ⟨_, rfl⟩
  | cons txin vin ih =>
    cases hs with
    | nil => cases hlen
    | cons h hs =>
      obtain ⟨hh, hrest⟩ := forall_mem_cons.mp hbounds
      obtain ⟨p, hp⟩ := t.exists_getAncestor (p := tip) (show 0 ≤ max (h - 1) 0 by omega) (by omega)
      unfold sequenceLocksLoop
      split_ifs
      · obtain ⟨r, hr⟩ := ih (Nat.succ.inj hlen) hrest mh mt
        rw [hr]
        exact ⟨_, rfl⟩
      · obtain ⟨r, hr⟩ := ih (Nat.succ.inj hlen) hrest mh (max mt (t.getMedianTimePast p +
          ((txin.nSequence &&& SEQUENCE_LOCKTIME_MASK) <<< SEQUENCE_LOCKTIME_GRANULARITY).toNat - 1))
        rw [hp]
        dsimp only
        rw [hr]
        exact ⟨_, rfl⟩
      · obtain ⟨r, hr⟩ := ih (Nat.succ.inj hlen) hrest
          (max mh (h + (txin.nSequence &&& SEQUENCE_LOCKTIME_MASK).toNat - 1)) mt
        dsimp only
        rw [hr]
        exact ⟨_, rfl⟩

lemma evaluateSequenceLocks_iff {lockPair : ℤ × ℤ} : t.evaluateSequenceLocks tip lockPair = true ↔
    lockPair.1 < t.nHeight tip + 1 ∧ lockPair.2 < t.getMedianTimePast tip := by
  unfold evaluateSequenceLocks
  rw [Bool.not_eq_true', Bool.or_eq_false_iff, decide_eq_false_iff_not, decide_eq_false_iff_not]
  omega

lemma maxInputHeight_spec {hs : List ℤ} (hbounds : ∀ h ∈ hs, h ≤ t.nHeight tip + 1) :
    0 ≤ t.maxInputHeight tip hs ∧ t.maxInputHeight tip hs ≤ t.nHeight tip ∧
      ∀ h ∈ hs, h ≠ t.nHeight tip + 1 → h ≤ t.maxInputHeight tip hs := by
  have hloop : ∀ m : ℤ, 0 ≤ m → m ≤ t.nHeight tip →
      m ≤ hs.foldl (fun m height => if height ≠ (t.nHeight tip : ℤ) + 1 then max m height else m) m ∧
      hs.foldl (fun m height => if height ≠ (t.nHeight tip : ℤ) + 1 then max m height else m) m ≤ t.nHeight tip ∧
      ∀ h ∈ hs, h ≠ t.nHeight tip + 1 →
        h ≤ hs.foldl (fun m height => if height ≠ (t.nHeight tip : ℤ) + 1 then max m height else m) m := by
    induction hs with
    | nil => exact fun m _ hm => ⟨le_rfl, hm, fun h hh => absurd hh not_mem_nil⟩
    | cons x hs ih =>
      intro m hm hm'
      obtain ⟨hx, hrest⟩ := forall_mem_cons.mp hbounds
      rw [foldl_cons]
      split_ifs with hne
      · obtain ⟨hle, htop, hall⟩ := ih hrest (max m x) (by omega) (by omega)
        refine ⟨by omega, htop, fun h hh hh' => ?_⟩
        rcases mem_cons.mp hh with rfl | hh
        · omega
        · exact hall h hh hh'
      · obtain ⟨hle, htop, hall⟩ := ih hrest m hm hm'
        refine ⟨hle, htop, fun h hh hh' => ?_⟩
        rcases mem_cons.mp hh with rfl | hh
        · exact absurd hh' hne
        · exact hall h hh hh'
  exact hloop 0 le_rfl (by omega)

lemma LockBelow.of_mempool (htimes : t.TimesRise)
    (hlock : t.LockBelow tip (t.nHeight tip + 1) (t.getMedianTimePast tip) txin (t.nHeight tip + 1))
    (hle : h ≤ t.nHeight tip' + 1) :
    t.LockBelow tip' (t.nHeight tip' + 1) (t.getMedianTimePast tip') txin h := by
  constructor
  case time =>
    intro hdisable htype
    obtain ⟨p, hp, hlt⟩ := hlock.time hdisable htype
    obtain ⟨hmem, hheight⟩ := t.getAncestor_mem hp
    obtain rfl := t.leveled.eq_of_depth_le hmem (by omega)
    obtain ⟨p', hp'⟩ := t.exists_getAncestor (p := tip') (show 0 ≤ max (h - 1) 0 by omega) (by omega)
    have := t.getMedianTimePast_le htimes (t.getAncestor_mem hp').1
    exact ⟨p', hp', by omega⟩
  case height =>
    intro hdisable htype
    have := hlock.height hdisable htype
    omega

lemma LockBelow.of_block {a : Ptr} (ha : a ∈ t.lineage tip) (ha' : a ∈ t.lineage tip') (hheight : (t.nHeight a : ℤ) = h)
    (hlock : t.LockBelow tip B C txin h) : t.LockBelow tip' B C txin h := by
  refine ⟨fun hdisable htype => ?_, hlock.height⟩
  obtain ⟨p, hp, hlt⟩ := hlock.time hdisable htype
  obtain ⟨hmem, hpheight⟩ := t.getAncestor_mem hp
  have hle := t.leveled.depth_le ha'
  obtain ⟨p', hp'⟩ := t.exists_getAncestor (p := tip') (show 0 ≤ max (h - 1) 0 by omega) (by omega)
  obtain ⟨hmem', hpheight'⟩ := t.getAncestor_mem hp'
  have hpa : p ∈ t.lineage a := by
    rcases t.leveled.total hmem ha with hpa | hap
    · exact hpa
    · rw [t.leveled.eq_of_depth_le hap (by omega)]
      exact t.leveled.self_mem p
  obtain rfl := t.leveled.eq_of_depth_eq (t.leveled.trans hpa ha') hmem' (by omega)
  exact ⟨p, hp', hlt⟩

end Locks

section Kept

variable {t} {tip tip' : Ptr} {pool pool' : CTxMemPool sha256} {tx : CMutableTransaction}
  {flags : Int32} {lp lp' : LockPoints Ptr}

lemma mapM_eq_some_iff {f : CTxIn → Option ℤ} {vin : List CTxIn} {hs : List ℤ} :
    vin.mapM f = some hs ↔ (∀ txin ∈ vin, (f txin).isSome) ∧ hs = vin.map (fun txin => (f txin).getD 0) := by
  induction vin generalizing hs with
  | nil =>
    rw [mapM_nil]
    constructor
    · intro h
      cases h
      exact ⟨fun txin htxin => absurd htxin not_mem_nil, rfl⟩
    · rintro ⟨-, rfl⟩
      rfl
  | cons txin vin ih =>
    rw [mapM_cons, forall_mem_cons, map_cons]
    cases hx : f txin with
    | none => simp
    | some x =>
      constructor
      · intro h
        obtain ⟨y, hy, h⟩ := Option.bind_eq_some_iff.mp h
        obtain ⟨xs, hxs, h⟩ := Option.bind_eq_some_iff.mp h
        obtain rfl := Option.some.inj hy
        obtain rfl := Option.some.inj h
        obtain ⟨hall, rfl⟩ := ih.mp hxs
        exact ⟨⟨rfl, hall⟩, rfl⟩
      · rintro ⟨⟨-, hall⟩, rfl⟩
        rw [ih.mpr ⟨hall, rfl⟩]
        rfl

lemma eq_some_getD {x : Option ℤ} (h : x.isSome) : x = some (x.getD 0) := by
  obtain ⟨y, rfl⟩ := Option.isSome_iff_exists.mp h
  rfl

lemma forall₂_map_iff {R : CTxIn → ℤ → Prop} {f : CTxIn → Option ℤ} {vin : List CTxIn} :
    List.Forall₂ R vin (vin.map (fun txin => (f txin).getD 0)) ↔ ∀ txin ∈ vin, R txin ((f txin).getD 0) := by
  rw [forall₂_map_right_iff, forall₂_same]

lemma mem_of_chainContains [DecidableEq Ptr] {b : Ptr} (h : t.chainContains tip b = true) : b ∈ t.lineage tip :=
  (t.leveled.getElem?_reverse tip).mp (of_decide_eq_true h) |>.1

variable (t) in
/-- No input with a relative lock that had a confirmed coin at `tip` is provided again at `tip'`. -/
def InputsOnce (tip tip' : Ptr) (pool pool' : CTxMemPool sha256) (vin : List CTxIn) : Prop :=
  ∀ txin ∈ vin, txin.nSequence &&& SEQUENCE_LOCKTIME_DISABLE_FLAG = 0 → ∀ h,
    pool.mapTx.lookup txin.prevout.hash = none → t.prevHeight tip pool txin.prevout = some h →
    pool'.mapTx.lookup txin.prevout.hash = none ∧
      ∀ c ∈ t.lineage tip', t.Creates c txin.prevout → (t.nHeight c : ℤ) ≤ h

lemma lockBelow_of_kept {txin : CTxIn} (htimes : t.TimesRise) {h h' : ℤ}
    (hh : t.prevHeight tip pool txin.prevout = some h) (hh' : t.prevHeight tip' pool' txin.prevout = some h')
    (hlock : t.LockBelow tip (t.nHeight tip + 1) (t.getMedianTimePast tip) txin h)
    (hkept : t.LockBelow tip (t.nHeight tip' + 1) (t.getMedianTimePast tip') txin h)
    (hchain : pool.mapTx.lookup txin.prevout.hash = none → txin.nSequence &&& SEQUENCE_LOCKTIME_DISABLE_FLAG = 0 →
      pool'.mapTx.lookup txin.prevout.hash = none ∧
      (∀ a ∈ t.lineage tip, (t.nHeight a : ℤ) = h → a ∈ t.lineage tip') ∧
      ∀ c ∈ t.lineage tip', t.Creates c txin.prevout → (t.nHeight c : ℤ) ≤ h) :
    t.LockBelow tip' (t.nHeight tip' + 1) (t.getMedianTimePast tip') txin h' := by
  obtain ⟨-, hle'⟩ := prevHeight_bounds hh'
  cases hpool : pool.mapTx.lookup txin.prevout.hash with
  | some e =>
    rw [prevHeight_of_lookup_some hpool hh] at hlock
    exact hlock.of_mempool htimes hle'
  | none =>
    by_cases hdisable : txin.nSequence &&& SEQUENCE_LOCKTIME_DISABLE_FLAG = 0
    · obtain ⟨hpool', hcontains, honce⟩ := hchain hpool hdisable
      obtain ⟨a, ha, hheight, hcreates, -⟩ := prevHeight_of_lookup_none hpool hh
      obtain ⟨a', ha', hheight', hcreates', hlast⟩ := prevHeight_of_lookup_none hpool' hh'
      have hmem := hcontains a ha hheight
      -- the coin is where it was
      have hsame : h' = h := by
        have := hlast a hmem hcreates
        have := honce a' ha' hcreates'
        omega
      rw [hsame]
      exact hkept.of_block ha hmem hheight
    · exact ⟨fun h => absurd h hdisable, fun h => absurd h hdisable⟩

/-- What lock points that are still valid say is what a new calculation says. -/
theorem checkSequenceLocks_of_kept [DecidableEq Ptr] (htimes : t.TimesRise)
    (hstored : t.checkSequenceLocks tip pool tx flags lp' false = some (true, lp))
    (hinputs : ∀ txin ∈ tx.vin, (t.getCoin tip' pool' txin.prevout).isSome)
    (honce : t.InputsOnce tip tip' pool pool' tx.vin) (hvalid : t.testLockPointValidity tip' lp = true)
    (hkept : t.checkSequenceLocks tip' pool' tx flags lp true = some (true, lp)) (lp₀ : LockPoints Ptr) :
    ∃ lp₁, t.checkSequenceLocks tip' pool' tx flags lp₀ false = some (true, lp₁) := by
  unfold checkSequenceLocks at hstored hkept ⊢
  rw [if_neg (by decide)] at hstored ⊢
  rw [if_pos rfl] at hkept
  have heval := evaluateSequenceLocks_iff.mp (Prod.mk.inj (Option.some.inj hkept)).1
  have hinputs' : ∀ txin ∈ tx.vin, (t.prevHeight tip' pool' txin.prevout).isSome := by
    intro txin htxin
    rw [prevHeight, Option.isSome_map]
    exact hinputs txin htxin
  rw [mapM_eq_some_iff.mpr ⟨hinputs', rfl⟩]
  cases hheights : tx.vin.mapM (fun txin => t.prevHeight tip pool txin.prevout) with
  | none =>
    rw [hheights] at hstored
    cases hstored
  | some hs =>
    obtain ⟨hsome, rfl⟩ := mapM_eq_some_iff.mp hheights
    rw [hheights] at hstored
    dsimp only at hstored ⊢
    unfold calculateSequenceLocks at hstored ⊢
    split_ifs at hstored ⊢ with henforce
    · cases hloop : t.sequenceLocksLoop tip tx.vin
          (tx.vin.map (fun txin => (t.prevHeight tip pool txin.prevout).getD 0)) (-1) (-1) with
      | none =>
        rw [hloop] at hstored
        cases hstored
      | some r =>
        rw [hloop] at hstored
        obtain ⟨hevalStored, rfl⟩ := Prod.mk.inj (Option.some.inj hstored)
        have hlocks := forall₂_map_iff.mp
          ((sequenceLocksLoop_lt_iff hloop).mp (evaluateSequenceLocks_iff.mp hevalStored)).2
        obtain ⟨hbase, hkeptLocks⟩ := (sequenceLocksLoop_lt_iff hloop).mp heval
        have hkeptLocks := forall₂_map_iff.mp hkeptLocks
        have hmem := forall₂_map_iff.mp (sequenceLocksLoop_heights hloop)
        have hheight : ∀ txin ∈ tx.vin, t.prevHeight tip pool txin.prevout =
            some ((t.prevHeight tip pool txin.prevout).getD 0) :=
          fun txin htxin => eq_some_getD (hsome txin htxin)
        have hheight' : ∀ txin ∈ tx.vin, t.prevHeight tip' pool' txin.prevout =
            some ((t.prevHeight tip' pool' txin.prevout).getD 0) :=
          fun txin htxin => eq_some_getD (hinputs' txin htxin)
        have hbounds : ∀ h ∈ r.1, h ≤ t.nHeight tip + 1 := by
          apply sequenceLocksLoop_heights_le hloop
          rw [forall_mem_map]
          exact fun txin htxin => (prevHeight_bounds (hheight txin htxin)).2
        obtain ⟨hmax, hmaxTip, hmaxAll⟩ := maxInputHeight_spec hbounds
        obtain ⟨b, hb⟩ := t.exists_getAncestor (p := tip) hmax hmaxTip
        obtain ⟨hbTip, hbHeight⟩ := t.getAncestor_mem hb
        have hbTip' : b ∈ t.lineage tip' := by
          unfold testLockPointValidity at hvalid
          rw [hb] at hvalid
          exact mem_of_chainContains hvalid
        have hnew : ∀ txin ∈ tx.vin, t.LockBelow tip' (t.nHeight tip' + 1) (t.getMedianTimePast tip') txin
            ((t.prevHeight tip' pool' txin.prevout).getD 0) := by
          intro txin htxin
          apply lockBelow_of_kept htimes (hheight txin htxin) (hheight' txin htxin) (hlocks txin htxin)
            (hkeptLocks txin htxin)
          intro hpool hdisable
          obtain ⟨hpool', hcreated⟩ := honce txin htxin hdisable _ hpool (hheight txin htxin)
          refine ⟨hpool', fun a ha haHeight => ?_, hcreated⟩
          have hle := t.leveled.depth_le ha
          have := hmaxAll _ (hmem txin htxin hdisable) (by omega)
          rcases t.leveled.total ha hbTip with hab | hba
          · exact t.leveled.trans hab hbTip'
          · rw [← t.leveled.eq_of_depth_le hba (by omega)]
            exact hbTip'
        have hbounds' : ∀ h ∈ tx.vin.map (fun txin => (t.prevHeight tip' pool' txin.prevout).getD 0),
            0 ≤ h ∧ h ≤ t.nHeight tip' + 1 := by
          rw [forall_mem_map]
          exact fun txin htxin => prevHeight_bounds (hheight' txin htxin)
        obtain ⟨r', hr'⟩ := exists_sequenceLocksLoop (length_map _).symm hbounds' (-1) (-1)
        rw [hr']
        refine ⟨⟨r'.2.1, r'.2.2, t.getAncestor tip' (t.maxInputHeight tip' r'.1)⟩, ?_⟩
        dsimp only
        rw [evaluateSequenceLocks_iff.mpr ((sequenceLocksLoop_lt_iff hr').mpr ⟨hbase, forall₂_map_iff.mpr hnew⟩)]
    · obtain ⟨-, rfl⟩ := Prod.mk.inj (Option.some.inj hstored)
      exact ⟨_, by dsimp only; rw [evaluateSequenceLocks_iff.mpr heval]⟩

end Kept

section Reorg

variable [DecidableEq Ptr] (tip : Ptr) (pool : CTxMemPool sha256) (flags : Int32) (adjustedTime nMemPoolHeight : ℤ)

def spendsImmature (vin : List CTxIn) : Bool :=
  vin.any (fun txin => decide (txin.prevout.hash ∉ pool.mapTx) &&
    match t.coinsAt (t.lineage tip) txin.prevout with
    | none => true
    | some coin => coin.fCoinBase && decide (nMemPoolHeight - coin.nHeight < COINBASE_MATURITY))

/-- One entry in the loop of `removeForReorg`: whether it is to be removed, and its lock points. -/
def reorgCheck (tx : CMutableTransaction) (spendsCoinbase : Bool) (lp : LockPoints Ptr) :
    Option (Bool × LockPoints Ptr) :=
  let validLP := t.testLockPointValidity tip lp
  if !t.checkFinalTx tip tx flags adjustedTime then some (true, lp)
  else
    match t.checkSequenceLocks tip pool tx flags lp validLP with
    | none => none
    | some (false, lp) => some (true, lp)
    | some (true, lp) => some (spendsCoinbase && t.spendsImmature tip pool nMemPoolHeight tx.vin, lp)

variable (spendsCoinbase : Uint256 → Bool) (lockPoints : Uint256 → LockPoints Ptr)

/-- What `removeForReorg` asks of an entry. -/
def reorgCheckAt (it : Uint256) : Option (Bool × LockPoints Ptr) :=
  match pool.mapTx.lookup it with
  | none => some (false, lockPoints it)
  | some e =>
    t.reorgCheck tip pool flags adjustedTime nMemPoolHeight e.tx.toCMutableTransaction (spendsCoinbase it)
      (lockPoints it)

/-- The pool and the lock points after `removeForReorg`. -/
def removeForReorg : Option (CTxMemPool sha256 × (Uint256 → LockPoints Ptr)) :=
  let check := t.reorgCheckAt tip pool flags adjustedTime nMemPoolHeight spendsCoinbase lockPoints
  if ∀ it ∈ pool.mapTx.keys, (check it).isSome then
    let txToRemove := pool.mapTx.keys.filter (fun it => (check it).map Prod.fst = some true)
    (pool.removeStaged (pool.descendantsOf txToRemove) false).map
      (fun pool' => (pool', fun it => ((check it).map Prod.snd).getD (lockPoints it)))
  else none

end Reorg

section ReorgSound

variable {t} {tip : Ptr} {pool pool' : CTxMemPool sha256} {flags : Int32}

lemma subset_worklist {α : Type} [DecidableEq α] {first : Finset α → Option α} {next : α → Finset α} {fuel : ℕ}
    {stage finished : Finset α} : finished ⊆ worklist first next fuel stage finished := by
  induction fuel generalizing stage finished with
  | zero => exact Finset.Subset.refl _
  | succ fuel ih =>
    unfold worklist
    split
    · exact Finset.Subset.refl _
    · exact (Finset.subset_insert _ _).trans ih

lemma mem_calculateDescendants_self {it : Uint256} (hit : it ∈ pool.mapTx) (s : SetEntries) :
    it ∈ pool.calculateDescendants it s := by
  unfold CTxMemPool.calculateDescendants
  split_ifs with hmem
  · exact subset_worklist hmem
  · obtain ⟨n, hn⟩ : ∃ n, pool.mapTx.keys.card = n + 1 := by
      have := Finset.card_pos.mpr ⟨it, mem_keys.mpr hit⟩
      exact ⟨pool.mapTx.keys.card - 1, by omega⟩
    have hfirst : SetEntries.first {it} = some it := by
      unfold SetEntries.first SetEntries.inOrder
      rw [Finset.sort_singleton]
      rfl
    rw [hn, worklist, hfirst]
    exact subset_worklist (Finset.mem_insert_self _ _)

lemma subset_descendantsOf {s : SetEntries} (hs : s ⊆ pool.mapTx.keys) : s ⊆ pool.descendantsOf s := by
  have hloop : ∀ (l : List Uint256) (done : SetEntries), (∀ it ∈ l, it ∈ pool.mapTx) →
      ∀ it, it ∈ done ∨ it ∈ l → it ∈ l.foldl (fun d it => pool.calculateDescendants it d) done := by
    intro l
    induction l with
    | nil => exact fun done _ it h => h.resolve_right not_mem_nil
    | cons x l ih =>
      intro done hall it hit
      obtain ⟨hx, hl⟩ := forall_mem_cons.mp hall
      rw [foldl_cons]
      apply ih _ hl
      rcases hit with hdone | hmem
      · exact Or.inl (subset_worklist hdone)
      · rcases mem_cons.mp hmem with rfl | hmem
        · exact Or.inl (mem_calculateDescendants_self hx done)
        · exact Or.inr hmem
  intro it hit
  apply hloop
  · exact fun x hx => mem_keys.mp (hs (SetEntries.mem_inOrder.mp hx))
  · exact Or.inr (SetEntries.mem_inOrder.mpr hit)

lemma not_mem_of_keptFrom (h : CTxMemPool.KeptFrom pool pool') {it : Uint256} (hit : it ∉ pool.mapTx) : it ∉ pool'.mapTx := by
  intro hmem
  obtain ⟨e', he'⟩ := mem_iff.mp hmem
  obtain ⟨e, he, -⟩ := h it e' he'
  exact hit (mem_of_lookup_eq_some he)

lemma not_mem_removeUnchecked (pool : CTxMemPool sha256) (it : Uint256) : it ∉ (pool.removeUnchecked it).mapTx := by
  unfold CTxMemPool.removeUnchecked
  split
  · exact lookup_eq_none.mp ‹_›
  · exact lookup_eq_none.mp (lookup_erase _ _)

lemma not_mem_of_removeStaged {stage : SetEntries} {updateDescendants : Bool}
    (h : pool.removeStaged stage updateDescendants = some pool') {it : Uint256} (hit : it ∈ stage) :
    it ∉ pool'.mapTx := by
  unfold CTxMemPool.removeStaged at h
  obtain ⟨mid, -, h⟩ := Option.bind_eq_some_iff.mp h
  obtain rfl := Option.some.inj h
  obtain ⟨l₁, l₂, hl⟩ := append_of_mem (SetEntries.mem_inOrder.mpr hit)
  rw [hl, foldl_append, foldl_cons]
  exact not_mem_of_keptFrom
    (CTxMemPool.keptFrom_foldl _ fun _ it => CTxMemPool.keptFrom_removeUnchecked it) (not_mem_removeUnchecked _ it)

variable [DecidableEq Ptr] {adjustedTime nMemPoolHeight : ℤ} {spendsCoinbase : Uint256 → Bool}
  {lockPoints lockPoints' : Uint256 → LockPoints Ptr}

variable (t) in
/-- The lock points were calculated for some tip, where the sequence locks allowed the next block, and if they are
used again, no input that had a coin there is provided again. -/
def StoredLockPoints (tip : Ptr) (pool : CTxMemPool sha256) (flags : Int32) (tx : CMutableTransaction)
    (lp : LockPoints Ptr) : Prop :=
  ∃ tip₁ pool₁ lp₀, t.checkSequenceLocks tip₁ pool₁ tx flags lp₀ false = some (true, lp) ∧
    (t.testLockPointValidity tip lp = true → t.InputsOnce tip₁ tip pool₁ pool tx.vin)

lemma checkSequenceLocks_of_reorgCheck (htimes : t.TimesRise) {tx : CMutableTransaction} {lp lp' : LockPoints Ptr}
    {spends : Bool} (hinputs : ∀ txin ∈ tx.vin, (t.getCoin tip pool txin.prevout).isSome)
    (hstored : t.StoredLockPoints tip pool flags tx lp)
    (h : t.reorgCheck tip pool flags adjustedTime nMemPoolHeight tx spends lp = some (false, lp'))
    (lp₀ : LockPoints Ptr) : ∃ lp₁, t.checkSequenceLocks tip pool tx flags lp₀ false = some (true, lp₁) := by
  obtain ⟨tip₁, pool₁, lp₁, hsuccess, honce⟩ := hstored
  unfold reorgCheck at h
  dsimp only at h
  split_ifs at h with hfinal
  · cases h
  cases hvalid : t.testLockPointValidity tip lp with
  | true =>
    rw [hvalid] at h
    cases hcheck : t.evaluateSequenceLocks tip (lp.height, lp.time) with
    | true =>
      apply checkSequenceLocks_of_kept htimes hsuccess hinputs (honce hvalid) hvalid
      rw [checkSequenceLocks, if_pos rfl, hcheck]
    | false =>
      rw [checkSequenceLocks, if_pos rfl, hcheck] at h
      cases h
  | false =>
    rw [hvalid] at h
    unfold checkSequenceLocks at h ⊢
    rw [if_neg (by decide)] at h ⊢
    cases hheights : tx.vin.mapM (fun txin => t.prevHeight tip pool txin.prevout) with
    | none =>
      rw [hheights] at h
      cases h
    | some hs =>
      rw [hheights] at h
      dsimp only at h ⊢
      cases hcalc : t.calculateSequenceLocks tip tx flags hs with
      | none =>
        rw [hcalc] at h
        cases h
      | some r =>
        rw [hcalc] at h
        dsimp only at h ⊢
        cases heval : t.evaluateSequenceLocks tip r.2 with
        | true => exact ⟨_, rfl⟩
        | false =>
          rw [heval] at h
          cases h

/-- Lock points that are still valid stand for a new calculation, and no entry that `removeForReorg` keeps fails
the sequence locks for the next block. -/
theorem lockPoints_sound (htimes : t.TimesRise) :
    (∀ tip₁ pool₁ tip pool tx flags lp₀ lp,
      t.checkSequenceLocks tip₁ pool₁ tx flags lp₀ false = some (true, lp) →
      (∀ txin ∈ tx.vin, (t.getCoin tip pool txin.prevout).isSome) → t.InputsOnce tip₁ tip pool₁ pool tx.vin →
      t.testLockPointValidity tip lp = true →
      t.checkSequenceLocks tip pool tx flags lp true = some (true, lp) →
      ∀ lp', ∃ lp₁, t.checkSequenceLocks tip pool tx flags lp' false = some (true, lp₁)) ∧
    ∀ tip pool flags adjustedTime nMemPoolHeight spendsCoinbase lockPoints pool' lockPoints',
      (∀ it e, pool.mapTx.lookup it = some e →
        (∀ txin ∈ e.tx.vin, (t.getCoin tip pool txin.prevout).isSome) ∧
        t.StoredLockPoints tip pool flags e.tx.toCMutableTransaction (lockPoints it)) →
      t.removeForReorg tip pool flags adjustedTime nMemPoolHeight spendsCoinbase lockPoints = some (pool', lockPoints') →
      ∀ it e, pool.mapTx.lookup it = some e → it ∈ pool'.mapTx → ∀ lp', ∃ lp₁,
        t.checkSequenceLocks tip pool e.tx.toCMutableTransaction flags lp' false = some (true, lp₁) := by
  refine ⟨fun tip₁ pool₁ tip pool tx flags lp₀ lp hstored hinputs honce hvalid hkept lp' =>
    checkSequenceLocks_of_kept htimes hstored hinputs honce hvalid hkept lp', ?_⟩
  intro tip pool flags adjustedTime nMemPoolHeight spendsCoinbase lockPoints pool' lockPoints' hentries hrun it e he
    hit lp'
  obtain ⟨hinputs, hstored⟩ := hentries it e he
  unfold removeForReorg at hrun
  dsimp only at hrun
  split_ifs at hrun with hall
  obtain ⟨pool₂, hstaged, heq⟩ := Option.map_eq_some_iff.mp hrun
  obtain ⟨rfl, -⟩ := Prod.mk.inj heq
  obtain ⟨⟨fRemove, lp⟩, hcheck⟩ := Option.isSome_iff_exists.mp (hall it (mem_keys.mpr
    (mem_of_lookup_eq_some he)))
  cases fRemove with
  | true =>
    refine absurd hit (not_mem_of_removeStaged hstaged (subset_descendantsOf (Finset.filter_subset _ _) ?_))
    rw [Finset.mem_filter, hcheck]
    exact ⟨mem_keys.mpr (mem_of_lookup_eq_some he), rfl⟩
  | false =>
    unfold reorgCheckAt at hcheck
    rw [he] at hcheck
    exact checkSequenceLocks_of_reorgCheck htimes hinputs hstored hcheck lp'

end ReorgSound

end MinedTree

section Recreated

def burnTx : CTransaction cSHA256 where
  toCMutableTransaction := plainTransaction [⟨COutPoint.null, [0x52, 0x52], SEQUENCE_FINAL, []⟩] [⟨5000000000, [0x6a]⟩]
  hash := BaseBlob.ofNat 32 0xf4d162b53fa7409ae120e5476bcc7a224053e3fd8a1af4ef90f27bb94c4800dc
  computeHash_eq := by decide +kernel

/-- Spends the output of `coinbaseTx`. -/
def spendCoinbaseTx : CTransaction cSHA256 where
  toCMutableTransaction := plainTransaction [⟨⟨coinbaseTx.hash, 0⟩, [], SEQUENCE_FINAL, []⟩] [⟨5000000000, [0x51]⟩]
  hash := BaseBlob.ofNat 32 0xec51af18f899eba3e21e0b1bad572d4169111f418f836b1fdf7757fd978912ae
  computeHash_eq := by decide +kernel

def twiceMined : MinedTree cSHA256 (Fin 103) where
  pprev p := if p = 0 then none else some (p - 1)
  pskip p := if p = 0 then none else some (Fin.ofNat 103 (getSkipHeight p))
  nHeight p := p
  nVersion _ := 4
  nTime p := p.val.toUInt32 + 1
  leveled := ⟨by decide +kernel, by decide +kernel⟩
  skips := by decide +kernel
  vtx p := if p = 1 ∨ p = 102 then [coinbaseTx] else if p = 101 then [burnTx, spendCoinbaseTx] else [burnTx]
  nHeight_lt p := p.isLt.trans (by decide)

/-- Spends the output of `coinbaseTx` two blocks after it. -/
def lockedTx : CMutableTransaction :=
  { plainTransaction [⟨⟨coinbaseTx.hash, 0⟩, [], 2, []⟩] [⟨5000000000, [0x51]⟩] with nVersion := 2 }

lemma timesRise_twiceMined : twiceMined.TimesRise := by
  unfold BlockEntries.TimesRise
  decide +kernel

/-- The coinbase transaction is mined once up to the block 100. -/
theorem lockPoints_sound_lockedTx :
    ∃ lp₁, twiceMined.checkSequenceLocks 100 CTxMemPool.empty lockedTx 1 ⟨0, 0, none⟩ false = some (true, lp₁) := by
  have hstored : twiceMined.checkSequenceLocks 50 CTxMemPool.empty lockedTx 1 ⟨0, 0, none⟩ false =
      some (true, ⟨2, -1, some 1⟩) := by decide +kernel
  apply (MinedTree.lockPoints_sound timesRise_twiceMined).1 50 CTxMemPool.empty 100 CTxMemPool.empty lockedTx 1
    ⟨0, 0, none⟩ ⟨2, -1, some 1⟩ hstored (by decide +kernel)
  · intro txin htxin _ h _ hh
    obtain rfl := mem_singleton.mp htxin
    have hheight : twiceMined.prevHeight 50 CTxMemPool.empty ⟨coinbaseTx.hash, 0⟩ = some 1 := by decide +kernel
    obtain rfl := Option.some.inj (hheight.symm.trans hh)
    refine ⟨lookup_empty _, ?_⟩
    rintro c hc ⟨-, tx, htx, txout, hout⟩
    have honce : ∀ c : Fin 103, twiceMined.nHeight c ≤ 100 →
        (∃ tx ∈ twiceMined.vtx c, (tx.createdOutput ⟨coinbaseTx.hash, 0⟩).isSome) → twiceMined.nHeight c ≤ 1 := by
      decide +kernel
    exact_mod_cast honce c (twiceMined.leveled.depth_le hc) ⟨tx, htx, by rw [hout]; rfl⟩
  · decide +kernel
  · decide +kernel

theorem lockPoints_of_recreated_input :
    twiceMined.TimesRise ∧
    ∃ lp, twiceMined.checkSequenceLocks 100 CTxMemPool.empty lockedTx 1 ⟨0, 0, none⟩ false = some (true, lp) ∧
      (∀ txin ∈ lockedTx.vin, (twiceMined.getCoin 102 CTxMemPool.empty txin.prevout).isSome) ∧
      twiceMined.testLockPointValidity 102 lp = true ∧
      twiceMined.checkSequenceLocks 102 CTxMemPool.empty lockedTx 1 lp true = some (true, lp) ∧
      (twiceMined.checkSequenceLocks 102 CTxMemPool.empty lockedTx 1 lp false).map Prod.fst = some false :=
  ⟨timesRise_twiceMined, ⟨2, -1, some 1⟩, by decide +kernel, by decide +kernel, by decide +kernel, by decide +kernel,
    by decide +kernel⟩

end Recreated

end MutableBitcoin
