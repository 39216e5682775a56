import Mathlib.Data.Finmap
import MutableBitcoin.Ancestors

/-!
# Version bits

`GetStateFor` and `GetStateSinceHeightFor` of `versionbits.cpp` with their cache. The state of a deployment is
defined by recursion along the branch, from the genesis block on, and the answers with the cache are these
states, whatever was asked before.
-/

namespace MutableBitcoin
open Lib List

/-- `ThresholdState`. -/
inductive ThresholdState where
  | DEFINED
  | STARTED
  | LOCKED_IN
  | ACTIVE
  | FAILED
deriving DecidableEq

def VERSIONBITS_TOP_BITS : UInt32 := 0x20000000
def VERSIONBITS_TOP_MASK : UInt32 := 0xE0000000

/-- What an `AbstractThresholdConditionChecker` gives for the parameters of a chain. -/
structure ThresholdConditionChecker (Ptr : Type) where
  condition : Ptr → Bool
  beginTime : ℤ
  endTime : ℤ
  period : ℕ
  threshold : ℤ
  period_pos : 0 < period

/-- `VersionBitsConditionChecker` for a deployment with this bit. -/
def versionBitsConditionChecker {Ptr : Type} (t : BlockEntries Ptr) (bit : UInt32) (nStartTime nTimeout : ℤ)
    (nMinerConfirmationWindow : ℕ) (nRuleChangeActivationThreshold : ℤ) (h : 0 < nMinerConfirmationWindow) :
    ThresholdConditionChecker Ptr where
  condition pindex :=
    (t.nVersion pindex).toUInt32 &&& VERSIONBITS_TOP_MASK == VERSIONBITS_TOP_BITS &&
      (t.nVersion pindex).toUInt32 &&& (1 <<< bit) != 0
  beginTime := nStartTime
  endTime := nTimeout
  period := nMinerConfirmationWindow
  threshold := nRuleChangeActivationThreshold
  period_pos := h

abbrev ThresholdConditionCache (Ptr : Type) := Finmap (fun _ : Option Ptr => ThresholdState)

namespace ThresholdConditionChecker

variable {Ptr : Type} (c : ThresholdConditionChecker Ptr) (t : IndexedTree Ptr)

section Source

/-- The number of blocks among the last `n` that meet the condition. Walking off the chain fails. -/
def countCondition : ℕ → Option Ptr → Option ℕ
  | 0, _ => some 0
  | _ + 1, none => none
  | n + 1, some pindexCount => (countCondition n (t.pprev pindexCount)).map (· + (c.condition pindexCount).toNat)

/-- One period of the threshold states. -/
def nextState (state : ThresholdState) (pindexPrev : Ptr) : Option ThresholdState :=
  match state with
  | .DEFINED =>
    if t.getMedianTimePast pindexPrev ≥ c.endTime then some .FAILED
    else if t.getMedianTimePast pindexPrev ≥ c.beginTime then some .STARTED
    else some .DEFINED
  | .STARTED =>
    if t.getMedianTimePast pindexPrev ≥ c.endTime then some .FAILED
    else
      match c.countCondition t c.period (some pindexPrev) with
      | none => none
      | some count => if (count : ℤ) ≥ c.threshold then some .LOCKED_IN else some .STARTED
  -- always progresses into `ACTIVE`
  | .LOCKED_IN => some .ACTIVE
  | .FAILED => some .FAILED
  | .ACTIVE => some .ACTIVE

def endOfPrevPeriod (pindexPrev : Option Ptr) : Option Ptr :=
  pindexPrev.bind (fun p => t.getAncestor p (t.nHeight p - ((t.nHeight p + 1) % c.period : ℕ)))

variable [DecidableEq Ptr]

/-- The first loop of `GetStateFor`, back to a block whose state is known. -/
def walkBack (cache : ThresholdConditionCache Ptr) (pindexPrev : Option Ptr) (vToCompute : List Ptr) :
    ThresholdConditionCache Ptr × Option Ptr × List Ptr :=
  match cache.lookup pindexPrev with
  | some _ => (cache, pindexPrev, vToCompute)
  | none =>
    match pindexPrev with
    -- the genesis block is by definition defined
    | none => (cache.insert none .DEFINED, none, vToCompute)
    | some p =>
      if t.getMedianTimePast p < c.beginTime then (cache.insert (some p) .DEFINED, some p, vToCompute)
      else walkBack cache (t.getAncestor p (t.nHeight p - c.period)) (p :: vToCompute)
termination_by (t.branch pindexPrev).length
decreasing_by
  rw [t.branch_getAncestor, t.branch_some, length_drop, t.length_lineage]
  have := c.period_pos
  omega

/-- The second loop of `GetStateFor`, with the last element of `vToCompute` first. -/
def walkForward (state : ThresholdState) (cache : ThresholdConditionCache Ptr) :
    List Ptr → Option (ThresholdState × ThresholdConditionCache Ptr)
  | [] => some (state, cache)
  | pindexPrev :: vToCompute =>
    match c.nextState t state pindexPrev with
    | none => none
    | some stateNext => walkForward stateNext (cache.insert (some pindexPrev) stateNext) vToCompute

/-- No result where an assertion fails or a null pointer is followed. -/
def getStateFor (pindexPrev : Option Ptr) (cache : ThresholdConditionCache Ptr) :
    Option (ThresholdState × ThresholdConditionCache Ptr) :=
  let (cache, pindexPrev, vToCompute) := c.walkBack t cache (c.endOfPrevPeriod t pindexPrev) []
  match cache.lookup pindexPrev with
  | none => none
  | some state => c.walkForward t state cache vToCompute

/-- The loop of `GetStateSinceHeightFor`. -/
def sinceWalk (initialState : ThresholdState) (pindexPrev : Ptr) (cache : ThresholdConditionCache Ptr) :
    Option (ℕ × ThresholdConditionCache Ptr) :=
  match h : t.getAncestor pindexPrev (t.nHeight pindexPrev - c.period) with
  | none => some (t.nHeight pindexPrev + 1, cache)
  | some previousPeriodParent =>
    match c.getStateFor t (some previousPeriodParent) cache with
    | none => none
    | some (state, cache) =>
      if state = initialState then sinceWalk initialState previousPeriodParent cache
      else some (t.nHeight pindexPrev + 1, cache)
termination_by t.nHeight pindexPrev
decreasing_by
  have := (t.getAncestor_mem h).2
  have := c.period_pos
  omega

/-- `GetStateSinceHeightFor`. -/
def getStateSinceHeightFor (pindexPrev : Option Ptr) (cache : ThresholdConditionCache Ptr) :
    Option (ℕ × ThresholdConditionCache Ptr) :=
  match c.getStateFor t pindexPrev cache with
  | none => none
  | some (initialState, cache) =>
    if initialState = .DEFINED then some (0, cache)
    else
      match c.endOfPrevPeriod t pindexPrev with
      | none => none
      | some p => c.sinceWalk t initialState p cache

end Source

section Bip9

/-- The state of the next block on a branch, the last block first, by recursion from the genesis block on: it
changes only where a period ends. -/
def bip9State : List Ptr → ThresholdState
  | [] => .DEFINED
  | p :: rest =>
    if (rest.length + 1) % c.period ≠ 0 then bip9State rest
    else
      match bip9State rest with
      | .DEFINED =>
        if c.endTime ≤ t.getMedianTimePast p then .FAILED
        else if c.beginTime ≤ t.getMedianTimePast p then .STARTED
        else .DEFINED
      | .STARTED =>
        if c.endTime ≤ t.getMedianTimePast p then .FAILED
        else if c.threshold ≤ ((p :: rest).take c.period).countP c.condition then .LOCKED_IN
        else .STARTED
      | .LOCKED_IN => .ACTIVE
      | .ACTIVE => .ACTIVE
      | .FAILED => .FAILED

def stateAtHeight (branch : List Ptr) (height : ℕ) : ThresholdState :=
  c.bip9State t (branch.drop (branch.length - height))

/-- The heights from which on the state has been that of the branch. -/
def HeldFrom (branch : List Ptr) : Set ℕ :=
  {height | height ≤ branch.length ∧ ∀ h, height ≤ h → h ≤ branch.length →
    c.stateAtHeight t branch h = c.bip9State t branch}

variable {c t}

lemma bip9State_cons_inner {p : Ptr} {rest : List Ptr} (h : (rest.length + 1) % c.period ≠ 0) :
    c.bip9State t (p :: rest) = c.bip9State t rest := by
  rw [bip9State, if_pos h]

lemma bip9State_drop (branch : List Ptr) :
    c.bip9State t (branch.drop (branch.length % c.period)) = c.bip9State t branch := by
  induction branch with
  | nil => rw [drop_nil]
  | cons p rest ih =>
    rw [length_cons]
    by_cases hmod : (rest.length + 1) % c.period = 0
    · rw [hmod, drop_zero]
    · have hsucc : (rest.length + 1) % c.period = rest.length % c.period + 1 := by
        have hsplit := Nat.mod_add_mod rest.length c.period 1
        have hlt := Nat.mod_lt rest.length c.period_pos
        rcases Nat.lt_or_ge (rest.length % c.period + 1) c.period with hnext | hnext
        · rw [← hsplit, Nat.mod_eq_of_lt hnext]
        · rw [← hsplit, show rest.length % c.period + 1 = c.period by omega, Nat.mod_self] at hmod
          exact absurd rfl hmod
      rw [hsucc, drop_succ_cons, ih, bip9State_cons_inner hmod]

lemma bip9State_drop_period {p : Ptr} {rest : List Ptr} (h : (rest.length + 1) % c.period = 0) :
    c.bip9State t ((p :: rest).drop c.period) = c.bip9State t rest := by
  have hsplit := Nat.mod_add_mod rest.length c.period 1
  have hlt := Nat.mod_lt rest.length c.period_pos
  have hmod : c.period = rest.length % c.period + 1 := by
    rcases Nat.lt_or_ge (rest.length % c.period + 1) c.period with hnext | hnext
    · rw [Nat.mod_eq_of_lt hnext, h] at hsplit
      omega
    · omega
  have hdrop : (p :: rest).drop c.period = rest.drop (rest.length % c.period) := by
    conv_lhs => rw [hmod]
    rw [drop_succ_cons]
  rw [hdrop, bip9State_drop]

lemma bip9State_sticky {state : ThresholdState} (hstate : state = .ACTIVE ∨ state = .FAILED) {l l' : List Ptr}
    (hsuffix : l <:+ l') (h : c.bip9State t l = state) : c.bip9State t l' = state := by
  induction l' with
  | nil => rwa [suffix_nil.mp hsuffix] at h
  | cons p rest ih =>
    rcases suffix_cons_iff.mp hsuffix with rfl | hrest
    · exact h
    · rw [bip9State, ih hrest]
      rcases hstate with rfl | rfl <;> split_ifs <;> rfl

lemma bip9State_defined {l l' : List Ptr} (hsuffix : l <:+ l') (h : c.bip9State t l' = .DEFINED) :
    c.bip9State t l = .DEFINED := by
  induction l' with
  | nil => rwa [suffix_nil.mp hsuffix]
  | cons p rest ih =>
    rcases suffix_cons_iff.mp hsuffix with rfl | hrest
    · exact h
    · apply ih hrest
      rw [bip9State] at h
      cases hstate : c.bip9State t rest with
      | DEFINED => rfl
      | _ =>
        rw [hstate] at h
        dsimp only at h
        split_ifs at h

lemma bip9State_of_early (horder : c.beginTime ≤ c.endTime) {l : List Ptr}
    (h : ∀ a ∈ l, t.getMedianTimePast a < c.beginTime) : c.bip9State t l = .DEFINED := by
  induction l with
  | nil => rfl
  | cons p rest ih =>
    obtain ⟨hp, hrest⟩ := forall_mem_cons.mp h
    rw [bip9State, ih hrest]
    dsimp only
    rw [if_neg (show ¬c.endTime ≤ t.getMedianTimePast p by omega),
      if_neg (show ¬c.beginTime ≤ t.getMedianTimePast p by omega), ite_self]

lemma countCondition_eq {n : ℕ} {pindex : Option Ptr} (h : n ≤ (t.branch pindex).length) :
    c.countCondition t n pindex = some (((t.branch pindex).take n).countP c.condition) := by
  induction n generalizing pindex with
  | zero => rfl
  | succ n ih =>
    cases pindex with
    | none => exact absurd h (Nat.not_succ_le_zero n)
    | some p =>
      rw [t.branch_some, t.lineage_eq, length_cons] at h
      rw [countCondition, ih (by omega), t.branch_some, t.lineage_eq, take_succ_cons, countP_cons]
      cases c.condition p <;> rfl

lemma nextState_eq {p : Ptr} (h : (t.nHeight p + 1) % c.period = 0) :
    c.nextState t (c.bip9State t (t.branch (t.getAncestor p (t.nHeight p - c.period)))) p =
      some (c.bip9State t (t.lineage p)) := by
  have hlen := t.length_lineage p
  have hcount : c.countCondition t c.period (some p) = some (((t.lineage p).take c.period).countP c.condition) := by
    apply countCondition_eq
    rw [t.branch_some, hlen]
    exact Nat.le_of_dvd (Nat.succ_pos _) (Nat.dvd_of_mod_eq_zero h)
  rw [t.branch_getAncestor]
  rw [t.lineage_eq, length_cons] at hlen
  rw [← hlen] at h
  rw [t.lineage_eq] at hcount ⊢
  rw [bip9State_drop_period h, bip9State, if_neg (not_not.mpr h)]
  cases c.bip9State t (t.branch (t.pprev p)) with
  | DEFINED =>
    simp only [nextState, ge_iff_le]
    split_ifs <;> rfl
  | STARTED =>
    simp only [nextState, ge_iff_le, hcount]
    split_ifs <;> rfl
  | LOCKED_IN => rfl
  | ACTIVE => rfl
  | FAILED => rfl

end Bip9

section Cache

variable {c t}

lemma branch_endOfPrevPeriod (pindexPrev : Option Ptr) : t.branch (c.endOfPrevPeriod t pindexPrev) =
    (t.branch pindexPrev).drop ((t.branch pindexPrev).length % c.period) := by
  cases pindexPrev with
  | none => rfl
  | some p => rw [t.branch_some, t.length_lineage, ← t.branch_getAncestor]; rfl

lemma period_dvd_endOfPrevPeriod (pindexPrev : Option Ptr) :
    c.period ∣ (t.branch (c.endOfPrevPeriod t pindexPrev)).length := by
  rw [branch_endOfPrevPeriod, length_drop]
  exact Nat.dvd_sub_mod _

variable [DecidableEq Ptr] {cache : ThresholdConditionCache Ptr} {pindexPrev goal : Option Ptr} {vToCompute : List Ptr}

variable (c t) in
/-- The cache has right answers only. -/
def CacheRight (cache : ThresholdConditionCache Ptr) : Prop :=
  ∀ q state, cache.lookup q = some state → state = c.bip9State t (t.branch q)

variable (c t) in
def Pending (goal : Option Ptr) : Option Ptr → List Ptr → Prop
  | pindexPrev, [] => pindexPrev = goal
  | pindexPrev, p :: vToCompute => t.getAncestor p (t.nHeight p - c.period) = pindexPrev ∧
      c.period ∣ t.nHeight p + 1 ∧ Pending goal (some p) vToCompute

lemma CacheRight.insert (h : c.CacheRight t cache) {q : Option Ptr} {state : ThresholdState}
    (hstate : state = c.bip9State t (t.branch q)) : c.CacheRight t (cache.insert q state) := by
  intro q' state' hlookup
  by_cases hq : q' = q
  · rw [hq, Finmap.lookup_insert] at hlookup
    rw [hq, ← Option.some.inj hlookup, hstate]
  · rw [Finmap.lookup_insert_of_ne _ hq] at hlookup
    exact h q' state' hlookup

lemma cacheRight_empty : c.CacheRight t ∅ := by
  intro q state h
  rw [Finmap.lookup_empty] at h
  cases h

lemma walkBack_spec (htimes : t.TimesRise) (horder : c.beginTime ≤ c.endTime) (hcache : c.CacheRight t cache)
    (hdvd : c.period ∣ (t.branch pindexPrev).length) (hpending : c.Pending t goal pindexPrev vToCompute) :
    ∃ cache' q vToCompute' state, c.walkBack t cache pindexPrev vToCompute = (cache', q, vToCompute') ∧
      c.CacheRight t cache' ∧ cache'.lookup q = some state ∧ c.Pending t goal q vToCompute' := by
  induction hn : (t.branch pindexPrev).length using Nat.strong_induction_on generalizing pindexPrev vToCompute with
  | _ n ih =>
    subst hn
    unfold walkBack
    cases hlookup : cache.lookup pindexPrev with
    | some state => exact ⟨cache, pindexPrev, vToCompute, state, rfl, hcache, hlookup, hpending⟩
    | none =>
      cases pindexPrev with
      | none => exact ⟨_, none, vToCompute, .DEFINED, rfl, hcache.insert rfl, Finmap.lookup_insert _, hpending⟩
      | some p =>
        dsimp only
        split_ifs with hearly
        · refine ⟨_, some p, vToCompute, .DEFINED, rfl, hcache.insert ?_, Finmap.lookup_insert _, hpending⟩
          exact (bip9State_of_early horder fun a ha => (t.getMedianTimePast_le htimes ha).trans_lt hearly).symm
        · have hlen := t.length_lineage p
          have hpos := c.period_pos
          rw [t.branch_some] at hdvd
          apply ih _ _ _ _ rfl
          · rw [t.branch_getAncestor, t.branch_some, length_drop]
            omega
          · rw [t.branch_getAncestor, length_drop]
            exact Nat.dvd_sub hdvd dvd_rfl
          · exact ⟨rfl, hlen ▸ hdvd, hpending⟩

lemma walkForward_spec (hcache : c.CacheRight t cache) (hpending : c.Pending t goal pindexPrev vToCompute) :
    ∃ cache', c.walkForward t (c.bip9State t (t.branch pindexPrev)) cache vToCompute =
      some (c.bip9State t (t.branch goal), cache') ∧ c.CacheRight t cache' := by
  induction vToCompute generalizing pindexPrev cache with
  | nil =>
    obtain rfl := hpending
    exact ⟨cache, rfl, hcache⟩
  | cons p vToCompute ih =>
    obtain ⟨rfl, hdvd, hrest⟩ := hpending
    rw [walkForward, nextState_eq (Nat.mod_eq_zero_of_dvd hdvd)]
    exact ih (hcache.insert rfl) hrest

/-- The answer is the state by recursion, and the cache stays right. -/
theorem getStateFor_spec (htimes : t.TimesRise) (horder : c.beginTime ≤ c.endTime) (hcache : c.CacheRight t cache)
    (pindexPrev : Option Ptr) : ∃ cache', c.getStateFor t pindexPrev cache =
      some (c.bip9State t (t.branch pindexPrev), cache') ∧ c.CacheRight t cache' := by
  obtain ⟨cache', q, vToCompute, state, hrun, hcache', hlookup, hpending⟩ :=
    walkBack_spec htimes horder hcache (period_dvd_endOfPrevPeriod pindexPrev)
      (show c.Pending t (c.endOfPrevPeriod t pindexPrev) (c.endOfPrevPeriod t pindexPrev) [] from rfl)
  unfold getStateFor
  rw [hrun]
  dsimp only
  rw [hlookup]
  dsimp only
  rw [hcache' q state hlookup, ← bip9State_drop (t.branch pindexPrev), ← branch_endOfPrevPeriod]
  exact walkForward_spec hcache' hpending

end Cache

section Since

variable {c t} {l m : List Ptr}

lemma stateAtHeight_length (l : List Ptr) : c.stateAtHeight t l l.length = c.bip9State t l := by
  rw [stateAtHeight, Nat.sub_self, drop_zero]

lemma stateAtHeight_suffix (h : m <:+ l) {j : ℕ} (hj : j ≤ m.length) :
    c.stateAtHeight t l j = c.stateAtHeight t m j := by
  obtain ⟨below, rfl⟩ := h
  rw [stateAtHeight, stateAtHeight, length_append, drop_append, drop_of_length_le (by omega),
    nil_append, show below.length + m.length - j - below.length = m.length - j by omega]

lemma stateAtHeight_period {n j : ℕ} (hn : c.period ∣ n) (hle : n ≤ j) (hlt : j < n + c.period) (hj : j ≤ l.length) :
    c.stateAtHeight t l j = c.stateAtHeight t l n := by
  have hmod : j % c.period = j - n := by
    obtain ⟨k, rfl⟩ := hn
    rw [← Nat.mod_eq_of_lt (show j - c.period * k < c.period by omega), Nat.sub_mul_mod hle]
  have hlen : (l.drop (l.length - j)).length = j := by
    rw [length_drop]
    omega
  rw [stateAtHeight, ← bip9State_drop, hlen, hmod, drop_drop, stateAtHeight,
    show l.length - j + (j - n) = l.length - n by omega]

lemma isLeast_heldFrom {n : ℕ} (hn : n + 1 ≤ l.length)
    (hheld : ∀ j, n + 1 ≤ j → j ≤ l.length → c.stateAtHeight t l j = c.bip9State t l)
    (hbefore : c.stateAtHeight t l n ≠ c.bip9State t l) : IsLeast (c.HeldFrom t l) (n + 1) := by
  refine ⟨⟨hn, hheld⟩, ?_⟩
  rintro r ⟨-, hr⟩
  by_contra hlt
  exact hbefore (hr n (by omega) (by omega))

variable [DecidableEq Ptr] {cache : ThresholdConditionCache Ptr}

lemma sinceWalk_spec (htimes : t.TimesRise) (horder : c.beginTime ≤ c.endTime) (hcache : c.CacheRight t cache)
    (hdefined : c.bip9State t l ≠ .DEFINED) {p : Ptr} (hsuffix : t.lineage p <:+ l) (hdvd : c.period ∣ t.nHeight p + 1)
    (hheld : ∀ j, t.nHeight p + 1 ≤ j → j ≤ l.length → c.stateAtHeight t l j = c.bip9State t l) :
    ∃ n cache', c.sinceWalk t (c.bip9State t l) p cache = some (n, cache') ∧ c.CacheRight t cache' ∧
      IsLeast (c.HeldFrom t l) n := by
  induction hn : t.nHeight p using Nat.strong_induction_on generalizing p cache with
  | _ n ih =>
    subst hn
    have hlen := t.length_lineage p
    have hle := hsuffix.length_le
    have hpos := c.period_pos
    have hperiod := Nat.le_of_dvd (Nat.succ_pos _) hdvd
    have hbranch := t.branch_getAncestor p c.period
    have hback : c.stateAtHeight t l (t.nHeight p) =
        c.bip9State t (t.branch (t.getAncestor p (t.nHeight p - c.period))) := by
      have hdvd' : c.period ∣ t.nHeight p + 1 - c.period := Nat.dvd_sub hdvd dvd_rfl
      rw [stateAtHeight_period hdvd' (by omega) (by omega) (by omega), stateAtHeight_suffix hsuffix (by omega),
        hbranch, stateAtHeight, hlen, show t.nHeight p + 1 - (t.nHeight p + 1 - c.period) = c.period by omega]
    rw [sinceWalk]
    split
    case h_1 hnone =>
      rw [hnone] at hback
      exact ⟨_, cache, rfl, hcache, isLeast_heldFrom (by omega) hheld (by rw [hback]; exact hdefined.symm)⟩
    case h_2 prev hprev =>
      rw [hprev] at hback hbranch
      obtain ⟨cache', hrun, hcache'⟩ := getStateFor_spec htimes horder hcache (some prev)
      rw [hrun]
      dsimp only
      split_ifs with hsame
      · have hprevlen := congrArg List.length hbranch
        rw [t.branch_some, t.length_lineage, length_drop, hlen] at hprevlen
        have hprevdvd : c.period ∣ t.nHeight prev + 1 := by
          rw [hprevlen]
          exact Nat.dvd_sub hdvd dvd_rfl
        apply ih (t.nHeight prev) (by omega) hcache' _ hprevdvd _ rfl
        · rw [← t.branch_some, hbranch]
          exact (drop_suffix _ _).trans hsuffix
        · intro j hj hj'
          rcases Nat.lt_or_ge (t.nHeight p) j with hlt | hge
          · exact hheld j hlt hj'
          · rw [stateAtHeight_period hprevdvd hj (by omega) hj',
              ← stateAtHeight_period hprevdvd (show t.nHeight prev + 1 ≤ t.nHeight p by omega) (by omega) (by omega), hback]
            exact hsame
      · refine ⟨_, cache', rfl, hcache', isLeast_heldFrom (by omega) hheld ?_⟩
        rw [hback]
        exact hsame

/-- The answer is the first height from which on the branch has had the state. -/
theorem getStateSinceHeightFor_spec (htimes : t.TimesRise) (horder : c.beginTime ≤ c.endTime)
    (hcache : c.CacheRight t cache) (pindexPrev : Option Ptr) :
    ∃ n cache', c.getStateSinceHeightFor t pindexPrev cache = some (n, cache') ∧ c.CacheRight t cache' ∧
      IsLeast (c.HeldFrom t (t.branch pindexPrev)) n := by
  obtain ⟨cache', hrun, hcache'⟩ := getStateFor_spec htimes horder hcache pindexPrev
  unfold getStateSinceHeightFor
  rw [hrun]
  dsimp only
  split_ifs with hdefined
  · refine ⟨0, cache', rfl, hcache', ⟨Nat.zero_le _, fun j _ hj => ?_⟩, fun r _ => Nat.zero_le r⟩
    rw [hdefined]
    exact bip9State_defined (drop_suffix _ _) hdefined
  · have hbranch := branch_endOfPrevPeriod (c := c) (t := t) pindexPrev
    have hdvd := period_dvd_endOfPrevPeriod (c := c) (t := t) pindexPrev
    cases hp : c.endOfPrevPeriod t pindexPrev with
    | none =>
      rw [hp, t.branch_none] at hbranch
      rw [← bip9State_drop, ← hbranch] at hdefined
      exact absurd rfl hdefined
    | some p =>
      rw [hp, t.branch_some] at hbranch hdvd
      rw [t.length_lineage] at hdvd
      have hsuffix : t.lineage p <:+ t.branch pindexPrev := by
        rw [hbranch]
        exact drop_suffix _ _
      apply sinceWalk_spec htimes horder hcache' hdefined hsuffix hdvd
      intro j hj hj'
      have hlen := congrArg List.length hbranch
      rw [t.length_lineage, length_drop] at hlen
      have hlt := Nat.mod_lt (t.branch pindexPrev).length c.period_pos
      rw [stateAtHeight_period hdvd hj (by omega) hj', ← stateAtHeight_length,
        stateAtHeight_period hdvd (show _ ≤ (t.branch pindexPrev).length by omega) (by omega) le_rfl]

end Since

section Queries

/-- The two questions to the cache. -/
inductive VersionBitsQuery (Ptr : Type) where
  | stateFor (pindexPrev : Option Ptr)
  | stateSinceHeightFor (pindexPrev : Option Ptr)

/-- Their answers. -/
inductive VersionBitsAnswer where
  | state (s : ThresholdState)
  | height (n : ℕ)
deriving DecidableEq

variable [DecidableEq Ptr]

def answer (q : VersionBitsQuery Ptr) (cache : ThresholdConditionCache Ptr) :
    Option (VersionBitsAnswer × ThresholdConditionCache Ptr) :=
  match q with
  | .stateFor pindexPrev => (c.getStateFor t pindexPrev cache).map (fun r => (.state r.1, r.2))
  | .stateSinceHeightFor pindexPrev => (c.getStateSinceHeightFor t pindexPrev cache).map (fun r => (.height r.1, r.2))

def answers : List (VersionBitsQuery Ptr) → ThresholdConditionCache Ptr → Option (List VersionBitsAnswer)
  | [], _ => some []
  | q :: queries, cache =>
    match c.answer t q cache with
    | none => none
    | some (a, cache) => (answers queries cache).map (a :: ·)

omit [DecidableEq Ptr] in
/-- The state by recursion from the genesis block on, and the height of the first block of the branch from
which on it has been this state. -/
def RightAnswer : VersionBitsQuery Ptr → VersionBitsAnswer → Prop
  | .stateFor pindexPrev, .state s => s = c.bip9State t (t.branch pindexPrev)
  | .stateSinceHeightFor pindexPrev, .height n => IsLeast (c.HeldFrom t (t.branch pindexPrev)) n ∧
      (c.bip9State t (t.branch pindexPrev) = .DEFINED → n = 0)
  | _, _ => False

variable {c t}

lemma answer_spec (htimes : t.TimesRise) (horder : c.beginTime ≤ c.endTime) {cache : ThresholdConditionCache Ptr}
    (hcache : c.CacheRight t cache) (q : VersionBitsQuery Ptr) :
    ∃ a cache', c.answer t q cache = some (a, cache') ∧ c.CacheRight t cache' ∧ c.RightAnswer t q a := by
  cases q with
  | stateFor pindexPrev =>
    obtain ⟨cache', hrun, hcache'⟩ := getStateFor_spec htimes horder hcache pindexPrev
    exact ⟨.state _, cache', by rw [answer, hrun]; rfl, hcache', rfl⟩
  | stateSinceHeightFor pindexPrev =>
    obtain ⟨n, cache', hrun, hcache', hleast⟩ := getStateSinceHeightFor_spec htimes horder hcache pindexPrev
    refine ⟨.height n, cache', by rw [answer, hrun]; rfl, hcache', hleast, fun hdefined => ?_⟩
    have hzero : 0 ∈ c.HeldFrom t (t.branch pindexPrev) := by
      refine ⟨Nat.zero_le _, fun j _ _ => ?_⟩
      rw [hdefined]
      exact bip9State_defined (drop_suffix _ _) hdefined
    exact Nat.le_zero.mp (hleast.2 hzero)

lemma answers_spec (htimes : t.TimesRise) (horder : c.beginTime ≤ c.endTime) {cache : ThresholdConditionCache Ptr}
    (hcache : c.CacheRight t cache) (queries : List (VersionBitsQuery Ptr)) :
    ∃ as, c.answers t queries cache = some as ∧ List.Forall₂ (c.RightAnswer t) queries as := by
  induction queries generalizing cache with
  | nil => exact ⟨[], rfl, List.Forall₂.nil⟩
  | cons q queries ih =>
    obtain ⟨a, cache', hrun, hcache', hright⟩ := answer_spec htimes horder hcache q
    obtain ⟨as, hrest, hall⟩ := ih hcache'
    refine ⟨a :: as, ?_, hall.cons hright⟩
    rw [answers, hrun]
    dsimp only
    rw [hrest]
    rfl

/-- Whatever is asked in whatever order, the cache changes no answer, and the states that are final last. -/
theorem versionBits_answers (htimes : t.TimesRise) (horder : c.beginTime ≤ c.endTime)
    (queries : List (VersionBitsQuery Ptr)) :
    (∃ as, c.answers t queries ∅ = some as ∧ List.Forall₂ (c.RightAnswer t) queries as) ∧
    ∀ a b, a ∈ t.lineage b → ∀ state, state = .ACTIVE ∨ state = .FAILED →
      c.bip9State t (t.branch (some a)) = state → c.bip9State t (t.branch (some b)) = state := by
  refine ⟨answers_spec htimes horder cacheRight_empty queries, fun a b ha state hstate hreached => ?_⟩
  obtain ⟨below, hbelow, -⟩ := t.leveled.eq_append_of_mem ha
  exact bip9State_sticky hstate ⟨below, hbelow.symm⟩ hreached

def signallingChain : IndexedTree (Fin 4) where
  pprev p := if p = 0 then none else some (p - 1)
  pskip p := if p = 0 then none else some (if p = 3 then 1 else 0)
  nHeight p := p
  nVersion _ := 0x20000001
  nTime p := 10 * (p.val.toUInt32 + 1)
  leveled := ⟨by decide, by decide⟩
  skips := by decide +kernel

/-- With periods of one block the deployment starts, locks in and gets active. -/
theorem versionBits_answers_signalling :
    let c := versionBitsConditionChecker signallingChain.toBlockEntries 0 10 100 1 1 (by decide)
    c.bip9State signallingChain (signallingChain.branch (some 3)) = .ACTIVE ∧
    ∃ as, c.answers signallingChain [.stateFor (some 3), .stateSinceHeightFor (some 2), .stateFor (some 0)] ∅ =
      some as ∧ List.Forall₂ (c.RightAnswer signallingChain)
        [.stateFor (some 3), .stateSinceHeightFor (some 2), .stateFor (some 0)] as := by
  intro c
  have htimes : signallingChain.TimesRise := by
    unfold BlockEntries.TimesRise
    decide +kernel
  obtain ⟨hanswers, hfinal⟩ := versionBits_answers (c := c) htimes (by decide)
    [.stateFor (some 3), .stateSinceHeightFor (some 2), .stateFor (some 0)]
  refine ⟨hfinal 2 3 (by decide +kernel) .ACTIVE (Or.inl rfl) (by decide +kernel), hanswers⟩

end Queries

end ThresholdConditionChecker

end MutableBitcoin
