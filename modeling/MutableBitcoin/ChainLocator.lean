import MutableBitcoin.Ancestors
import Mathlib.Data.Finset.Insert

/-!
# The active chain and block locators

`CChain` with `SetTip`, `FindFork` and `GetLocator`, and `LastCommonAncestor` of `chain.cpp`, and
`FindForkInGlobalIndex` of `validation.cpp`. The vector of the chain holds the branch of the tip whatever tips were
set before it.
-/

namespace MutableBitcoin
open Lib List

/-- The blocks of a chain by height. -/
structure CChain (Ptr : Type) where
  vChain : List (Option Ptr)

namespace CChain

variable {Ptr : Type} (chain : CChain Ptr)

/-- `operator[]`. -/
def get (nHeight : ℤ) : Option Ptr :=
  if nHeight < 0 ∨ nHeight ≥ chain.vChain.length then none else chain.vChain[nHeight.toNat]?.join

def height : ℤ := chain.vChain.length - 1

def tip : Option Ptr := chain.vChain.getLast?.join

def genesis : Option Ptr := chain.vChain.head?.join

/-- `vChain.resize`. -/
def resize (n : ℕ) : List (Option Ptr) := chain.vChain.take n ++ List.replicate (n - chain.vChain.length) none

end CChain

/-- Why a run of `GetLocator` has no result. -/
inductive LocatorFailure where
  | signedOverflow
  | endlessLoop

namespace IndexedTree

variable {Ptr : Type} (t : IndexedTree Ptr)

section Definitions

variable [DecidableEq Ptr]

def contains (chain : CChain Ptr) (pindex : Ptr) : Bool := chain.get (t.nHeight pindex) = some pindex

/-- The loop of `SetTip`. -/
def setTipWalk (vChain : List (Option Ptr)) : Option Ptr → List (Option Ptr)
  | none => vChain
  | some pindex =>
    if vChain[t.nHeight pindex]? = some (some pindex) then vChain
    else setTipWalk (vChain.set (t.nHeight pindex) (some pindex)) (t.pprev pindex)
termination_by pindex => (t.branch pindex).length
decreasing_by exact t.length_branch_pprev_lt pindex

def setTip (chain : CChain Ptr) : Option Ptr → CChain Ptr
  | none => ⟨[]⟩
  | some pindex => ⟨t.setTipWalk (chain.resize (t.nHeight pindex + 1)) (some pindex)⟩

/-- The chain after calls of `SetTip`. -/
def setTips (tips : List (Option Ptr)) : CChain Ptr := tips.foldl t.setTip ⟨[]⟩

/-- The loop of `FindFork`. -/
def findForkWalk (chain : CChain Ptr) : Option Ptr → Option Ptr
  | none => none
  | some pindex => if t.contains chain pindex then some pindex else findForkWalk chain (t.pprev pindex)
termination_by pindex => (t.branch pindex).length
decreasing_by exact t.length_branch_pprev_lt pindex

def findFork (chain : CChain Ptr) : Option Ptr → Option Ptr
  | none => none
  | some pindex =>
    if t.nHeight pindex > chain.height then t.findForkWalk chain (t.getAncestor pindex chain.height)
    else t.findForkWalk chain (some pindex)

/-- The loop of `LastCommonAncestor`, with the two blocks where it stops. -/
def commonWalk : Option Ptr → Option Ptr → Option Ptr × Option Ptr
  | some pa, some pb => if pa = pb then (some pa, some pb) else commonWalk (t.pprev pa) (t.pprev pb)
  | pa, pb => (pa, pb)
termination_by pa => (t.branch pa).length
decreasing_by exact t.length_branch_pprev_lt pa

/-- There is no result where `assert(pa == pb)` fails. -/
def lastCommonAncestor (pa pb : Ptr) : Option (Option Ptr) :=
  let r :=
    if t.nHeight pa > t.nHeight pb then t.commonWalk (t.getAncestor pa (t.nHeight pb)) (some pb)
    else if t.nHeight pb > t.nHeight pa then t.commonWalk (some pa) (t.getAncestor pb (t.nHeight pa))
    else t.commonWalk (some pa) (some pb)
  if r.1 = r.2 then some r.1 else none

/-- The loop of `GetLocator`, within `fuel` iterations. -/
def getLocatorLoop (chain : CChain Ptr) : ℕ → Option Ptr → ℕ → List Ptr → Except LocatorFailure (List Ptr)
  | _, none, _, vHave => .ok vHave
  | 0, some _, _, _ => .error .endlessLoop
  | fuel + 1, some pindex, nStep, vHave =>
    let vHave := vHave ++ [pindex]
    -- stop when the genesis block was added
    if t.nHeight pindex = 0 then .ok vHave
    else
      let nHeight : ℤ := max (t.nHeight pindex - nStep) 0
      let pindex := if t.contains chain pindex then chain.get nHeight else t.getAncestor pindex nHeight
      if vHave.length > 10 then
        if nStep * 2 ≥ 2 ^ 31 then .error .signedOverflow
        else getLocatorLoop chain fuel pindex (nStep * 2) vHave
      else getLocatorLoop chain fuel pindex nStep vHave

/-- Each iteration goes down at least one block. -/
def getLocator (chain : CChain Ptr) (pindex : Option Ptr) : Except LocatorFailure (List Ptr) :=
  let pindex := pindex.or chain.tip
  t.getLocatorLoop chain (pindex.elim 0 (fun p => t.nHeight p + 1)) pindex 1 []

/-- `FindForkInGlobalIndex`. -/
def findForkInGlobalIndex (mapBlockIndex : Finset Ptr) (chain : CChain Ptr) : List Ptr → Option Ptr
  | [] => chain.genesis
  | hash :: vHave =>
    if hash ∈ mapBlockIndex then
      if t.contains chain hash then some hash
      else if t.getAncestor hash chain.height = chain.tip then chain.tip
      else findForkInGlobalIndex mapBlockIndex chain vHave
    else findForkInGlobalIndex mapBlockIndex chain vHave

end Definitions

section Tracks

variable {t} {chain : CChain Ptr} {top : Option Ptr} {a p : Ptr}

/-- The vector holds the branch of the tip. -/
def Tracks (t : IndexedTree Ptr) (chain : CChain Ptr) (top : Option Ptr) : Prop :=
  chain.vChain = (t.branch top).reverse.map some

lemma Tracks.getElem? (h : t.Tracks chain top) {i : ℕ} :
    chain.vChain[i]? = some (some a) ↔ a ∈ t.branch top ∧ t.nHeight a = i := by
  rw [h, getElem?_map]
  cases top with
  | none => simp
  | some b =>
    rw [branch_some, ← t.leveled.getElem?_reverse b]
    cases (t.lineage b).reverse[i]? <;> simp

lemma Tracks.tip (h : t.Tracks chain top) : chain.tip = top := by
  rw [CChain.tip, h, getLast?_map, getLast?_reverse]
  cases top with
  | none => rfl
  | some b =>
    rw [branch_some, t.lineage_eq b]
    rfl

lemma Tracks.get_eq_some (h : t.Tracks chain top) {nHeight : ℤ} :
    chain.get nHeight = some a ↔ a ∈ t.branch top ∧ (t.nHeight a : ℤ) = nHeight := by
  unfold CChain.get
  split_ifs with hout
  · refine ⟨fun heq => (nomatch heq), ?_⟩
    rintro ⟨ha, rfl⟩
    have hlt := (List.getElem?_eq_some_iff.mp (h.getElem?.mpr ⟨ha, rfl⟩)).1
    omega
  · rw [Option.join_eq_some_iff, h.getElem?]
    refine and_congr_right (fun _ => ?_)
    omega

variable [DecidableEq Ptr]

lemma Tracks.contains (h : t.Tracks chain top) : t.contains chain p = true ↔ p ∈ t.branch top := by
  rw [IndexedTree.contains, decide_eq_true_iff, h.get_eq_some]
  exact and_iff_left rfl

lemma setTipWalk_spec {old : List (Option Ptr)}
    (hold : ∀ i q, old[i]? = some (some q) → t.nHeight q = i ∧ ∀ c ∈ t.lineage q, old[t.nHeight c]? = some (some c))
    (vChain : List (Option Ptr)) (pindex : Option Ptr) (hlen : (t.branch pindex).length ≤ vChain.length)
    (hbelow : ∀ i < (t.branch pindex).length, vChain[i]? = old[i]?) :
    (t.setTipWalk vChain pindex).length = vChain.length ∧
      (∀ i ≥ (t.branch pindex).length, (t.setTipWalk vChain pindex)[i]? = vChain[i]?) ∧
      ∀ q ∈ t.branch pindex, (t.setTipWalk vChain pindex)[t.nHeight q]? = some (some q) := by
  fun_induction setTipWalk t vChain pindex with
  | case1 vChain => exact ⟨rfl, fun i _ => rfl, fun q hq => absurd hq not_mem_nil⟩
  | case2 vChain p hmatch =>
    rw [branch_some, t.length_lineage] at hbelow
    refine ⟨rfl, fun i _ => rfl, fun q hq => ?_⟩
    have hle := t.leveled.depth_le hq
    rw [hbelow _ (by omega)] at hmatch
    rw [hbelow _ (by omega)]
    exact (hold _ p hmatch).2 q hq
  | case3 vChain p hmatch ih =>
    rw [branch_some, t.length_lineage] at hbelow hlen ⊢
    rw [t.length_branch_pprev, length_set] at ih
    obtain ⟨hlen', habove, hplaced⟩ := ih (by omega) (by
      intro i hi
      rw [getElem?_set_ne (by omega)]
      exact hbelow i (by omega))
    refine ⟨hlen', fun i hi => ?_, fun q hq => ?_⟩
    · rw [habove i (by omega), getElem?_set_ne (by omega)]
    · rw [t.lineage_eq p, mem_cons] at hq
      rcases hq with rfl | hq
      · rw [habove _ le_rfl, getElem?_set_self (by omega)]
      · exact hplaced q hq

lemma Tracks.setTip (h : t.Tracks chain top) (pindex : Option Ptr) : t.Tracks (t.setTip chain pindex) pindex := by
  cases pindex with
  | none => rfl
  | some p =>
    have hget : ∀ i < t.nHeight p + 1, (chain.resize (t.nHeight p + 1))[i]? = some (chain.vChain[i]?.join) := by
      intro i hi
      unfold CChain.resize
      by_cases hlt : i < chain.vChain.length
      · rw [getElem?_append_left (by rw [length_take]; omega), getElem?_take_of_lt hi,
          getElem?_eq_getElem hlt]
        rfl
      · rw [getElem?_append_right (by rw [length_take]; omega), getElem?_replicate,
          if_pos (by rw [length_take]; omega), getElem?_eq_none (by omega)]
        rfl
    have hlen : (chain.resize (t.nHeight p + 1)).length = t.nHeight p + 1 := by
      unfold CChain.resize
      rw [length_append, length_take, length_replicate]
      omega
    have hold : ∀ i q, (chain.resize (t.nHeight p + 1))[i]? = some (some q) → t.nHeight q = i ∧
        ∀ c ∈ t.lineage q, (chain.resize (t.nHeight p + 1))[t.nHeight c]? = some (some c) := by
      intro i q hq
      have hi : i < t.nHeight p + 1 := by
        rw [← hlen]
        exact (List.getElem?_eq_some_iff.mp hq).1
      rw [hget i hi, Option.some.injEq, Option.join_eq_some_iff, h.getElem?] at hq
      refine ⟨hq.2, fun c hc => ?_⟩
      have hle := t.leveled.depth_le hc
      rw [hget _ (by omega), Option.some.injEq, Option.join_eq_some_iff, h.getElem?]
      exact ⟨t.mem_branch_trans hc hq.1, rfl⟩
    obtain ⟨hlen', -, hplaced⟩ := setTipWalk_spec hold (chain.resize (t.nHeight p + 1)) (some p)
      (by rw [branch_some, t.length_lineage, hlen]) (fun i _ => rfl)
    apply ext_getElem?
    intro i
    by_cases hi : i < t.nHeight p + 1
    · obtain ⟨a, ha⟩ := t.exists_getAncestor (p := p) (show (0 : ℤ) ≤ i by omega) (by omega)
      obtain ⟨hmem, hheight⟩ := t.getAncestor_mem ha
      obtain rfl : t.nHeight a = i := by exact_mod_cast hheight
      rw [getElem?_map, branch_some, (t.leveled.getElem?_reverse p).mpr ⟨hmem, rfl⟩]
      exact hplaced a hmem
    · rw [IndexedTree.setTip, getElem?_eq_none (by dsimp only; omega),
        getElem?_eq_none (by rw [length_map, length_reverse, branch_some, t.length_lineage]; omega)]

/-- After any calls of `SetTip` the chain is that of the last tip. -/
theorem tracks_setTips (tips : List (Option Ptr)) : t.Tracks (t.setTips tips) tips.getLast?.join := by
  induction tips using List.reverseRecOn with
  | nil => rfl
  | append_singleton tips tip ih =>
    unfold setTips at ih ⊢
    rw [foldl_append, getLast?_append]
    exact ih.setTip tip

end Tracks

section Fork

variable {t} {chain : CChain Ptr} {top : Option Ptr} {a b c p : Ptr}

lemma mem_branch_getAncestor {height : ℤ} (hle : height ≤ t.nHeight p) :
    c ∈ t.branch (t.getAncestor p height) ↔ c ∈ t.lineage p ∧ (t.nHeight c : ℤ) ≤ height := by
  by_cases hzero : 0 ≤ height
  · obtain ⟨a, ha⟩ := t.exists_getAncestor hzero hle
    obtain ⟨hmem, rfl⟩ := t.getAncestor_mem ha
    rw [ha, branch_some]
    constructor
    · intro hc
      have := t.leveled.depth_le hc
      exact ⟨t.leveled.trans hc hmem, by omega⟩
    · rintro ⟨hc, hheight⟩
      rcases t.leveled.total hc hmem with h | h
      · exact h
      · rw [t.leveled.eq_of_depth_le h (by omega)]
        exact t.leveled.self_mem c
  · rw [BlockEntries.getAncestor, if_pos (by omega), branch_none]
    refine ⟨fun hc => absurd hc not_mem_nil, fun hc => ?_⟩
    omega

variable [DecidableEq Ptr]

lemma Tracks.findForkWalk (h : t.Tracks chain top) (pindex : Option Ptr) :
    c ∈ t.branch (t.findForkWalk chain pindex) ↔ c ∈ t.branch pindex ∧ c ∈ t.branch top := by
  fun_induction IndexedTree.findForkWalk t chain pindex with
  | case1 => simp
  | case2 p hmem =>
    rw [h.contains] at hmem
    exact (and_iff_left_of_imp (fun hc => t.mem_branch_trans hc hmem)).symm
  | case3 p hmem ih =>
    rw [h.contains] at hmem
    rw [ih, branch_some, t.lineage_eq p, mem_cons]
    constructor
    · exact fun ⟨hc, htop⟩ => ⟨Or.inr hc, htop⟩
    · rintro ⟨rfl | hc, htop⟩
      · exact absurd htop hmem
      · exact ⟨hc, htop⟩

lemma Tracks.findFork (h : t.Tracks chain top) (pindex : Option Ptr) :
    c ∈ t.branch (t.findFork chain pindex) ↔ c ∈ t.branch pindex ∧ c ∈ t.branch top := by
  cases pindex with
  | none => simp [IndexedTree.findFork]
  | some p =>
    rw [IndexedTree.findFork]
    split_ifs with habove
    · rw [h.findForkWalk, mem_branch_getAncestor habove.le, and_assoc, branch_some]
      refine and_congr_right (fun _ => and_iff_right_of_imp (fun htop => ?_))
      have hlt := (List.getElem?_eq_some_iff.mp (h.getElem?.mpr ⟨htop, rfl⟩)).1
      rw [CChain.height]
      omega
    · rw [h.findForkWalk]

lemma commonWalk_spec (pa pb : Option Ptr) (hlen : (t.branch pa).length = (t.branch pb).length) :
    ∃ r, t.commonWalk pa pb = (r, r) ∧ ∀ c, c ∈ t.branch r ↔ c ∈ t.branch pa ∧ c ∈ t.branch pb := by
  fun_induction IndexedTree.commonWalk t pa pb with
  | case1 p => exact ⟨some p, rfl, fun c => (and_self_iff).symm⟩
  | case2 a b hne ih =>
    rw [branch_some, branch_some, t.length_lineage, t.length_lineage] at hlen
    rw [t.length_branch_pprev, t.length_branch_pprev] at ih
    obtain ⟨r, hrun, hr⟩ := ih (by omega)
    refine ⟨r, hrun, fun c => ?_⟩
    rw [hr, branch_some, branch_some, t.lineage_eq a, t.lineage_eq b, mem_cons, mem_cons]
    constructor
    · exact fun ⟨hca, hcb⟩ => ⟨Or.inr hca, Or.inr hcb⟩
    · rintro ⟨rfl | hca, rfl | hcb⟩
      · exact absurd rfl hne
      · exact absurd (t.leveled.eq_of_depth_le (t.mem_branch_pprev hcb) (by omega)) hne
      · exact absurd (t.leveled.eq_of_depth_le (t.mem_branch_pprev hca) (by omega)).symm hne
      · exact ⟨hca, hcb⟩
  | case3 pa pb hnone =>
    -- of two branches of one length none is empty alone
    have hpos : ∀ q, (t.branch (some q)).length ≠ 0 := fun q => by rw [branch_some, t.length_lineage]; omega
    cases pa with
    | none =>
      cases pb with
      | none => exact ⟨none, rfl, fun c => (and_self_iff).symm⟩
      | some b => exact absurd hlen.symm (hpos b)
    | some a =>
      cases pb with
      | none => exact absurd hlen (hpos a)
      | some b => exact absurd rfl (hnone a b rfl)

lemma lastCommonAncestor_spec (pa pb : Ptr) :
    ∃ r, t.lastCommonAncestor pa pb = some r ∧ ∀ c, c ∈ t.branch r ↔ c ∈ t.lineage pa ∧ c ∈ t.lineage pb := by
  have hlift : ∀ x y : Option Ptr, (t.branch x).length = (t.branch y).length →
      (∀ c, (c ∈ t.branch x ∧ c ∈ t.branch y) ↔ c ∈ t.lineage pa ∧ c ∈ t.lineage pb) →
      ∃ r, (let w := t.commonWalk x y; if w.1 = w.2 then some w.1 else none) = some r ∧
        ∀ c, c ∈ t.branch r ↔ c ∈ t.lineage pa ∧ c ∈ t.lineage pb := by
    intro x y hlen hxy
    obtain ⟨r, hrun, hr⟩ := commonWalk_spec x y hlen
    refine ⟨r, ?_, fun c => (hr c).trans (hxy c)⟩
    rw [hrun]
    exact if_pos rfl
  have hbranch : ∀ p q : Ptr, t.nHeight q < t.nHeight p →
      (t.branch (t.getAncestor p (t.nHeight q))).length = (t.branch (some q)).length ∧
      ∀ c, (c ∈ t.branch (t.getAncestor p (t.nHeight q)) ∧ c ∈ t.branch (some q)) ↔ c ∈ t.lineage p ∧ c ∈ t.lineage q := by
    intro p q hlt
    constructor
    · obtain ⟨a, ha⟩ := t.exists_getAncestor (p := p) (show (0 : ℤ) ≤ t.nHeight q by omega) (by omega)
      obtain ⟨-, hheight⟩ := t.getAncestor_mem ha
      rw [ha, branch_some, branch_some, t.length_lineage, t.length_lineage]
      omega
    · intro c
      rw [mem_branch_getAncestor (by omega), and_assoc, branch_some]
      refine and_congr_right (fun _ => and_iff_right_of_imp (fun hc => ?_))
      exact_mod_cast t.leveled.depth_le hc
  unfold lastCommonAncestor
  split_ifs with hab hba
  · obtain ⟨hlen, hmem⟩ := hbranch pa pb hab
    exact hlift _ _ hlen hmem
  · obtain ⟨hlen, hmem⟩ := hbranch pb pa hba
    refine hlift _ _ hlen.symm (fun c => ?_)
    rw [and_comm, hmem, and_comm]
  · refine hlift _ _ ?_ (fun c => Iff.rfl)
    rw [branch_some, branch_some, t.length_lineage, t.length_lineage]
    omega

end Fork

section Locator

variable {t} [DecidableEq Ptr] {chain : CChain Ptr} {top : Option Ptr} {A p f : Ptr}

lemma Tracks.ancestor_eq (h : t.Tracks chain top) {nHeight : ℤ} (hzero : 0 ≤ nHeight) (hle : nHeight ≤ t.nHeight p) :
    (if t.contains chain p then chain.get nHeight else t.getAncestor p nHeight) = t.getAncestor p nHeight := by
  split_ifs with hmem
  · obtain ⟨a, ha⟩ := t.exists_getAncestor hzero hle
    obtain ⟨hlineage, hheight⟩ := t.getAncestor_mem ha
    rw [ha, h.get_eq_some]
    exact ⟨t.mem_branch_trans hlineage (h.contains.mp hmem), hheight⟩
  · rfl

/-- Where an iteration stands that comes after `k` others: they went back one block each, or by steps that have doubled
since the eleventh. -/
structure LocatorStep (t : IndexedTree Ptr) (A p : Ptr) (nStep k : ℕ) : Prop where
  mem : p ∈ t.lineage A
  distance : (k ≤ 10 ∧ nStep = 1 ∧ t.nHeight A = t.nHeight p + k) ∨
    (10 < k ∧ 1 < nStep ∧ t.nHeight A ≤ t.nHeight p + 9 + nStep ∧
      (t.nHeight p ≠ 0 → t.nHeight A = t.nHeight p + 9 + nStep))

/-- The blocks that are named before the first one that is not above `f` are above it, and that one is not further than
twice as far as `f`. -/
def Covers (t : IndexedTree Ptr) (A f : Ptr) (vHave : List Ptr) : Prop :=
  ∃ pre x post, vHave = pre ++ x :: post ∧ (∀ a ∈ pre, a ∈ t.lineage A ∧ t.nHeight f < t.nHeight a) ∧
    x ∈ t.lineage A ∧ t.nHeight x ≤ t.nHeight f ∧ 2 * t.nHeight f ≤ t.nHeight A + t.nHeight x

lemma Tracks.getLocatorLoop (h : t.Tracks chain top) (hbound : t.nHeight A < 2 ^ 30) {fuel nStep : ℕ} {vHave : List Ptr}
    (hstep : t.LocatorStep A p nStep vHave.length) (hfuel : t.nHeight p < fuel) :
    ∃ l, t.getLocatorLoop chain fuel (some p) nStep vHave = .ok (vHave ++ l) ∧
      ∀ f ∈ t.lineage A, (vHave.length ≤ 10 → t.nHeight f ≤ t.nHeight p) →
        (10 < vHave.length → 2 * t.nHeight f + 20 + nStep ≤ 2 * t.nHeight A) → t.Covers A f l := by
  induction fuel generalizing p nStep vHave with
  | zero => omega
  | succ fuel ih =>
    have hself : ∀ f, t.nHeight p ≤ t.nHeight f → (vHave.length ≤ 10 → t.nHeight f ≤ t.nHeight p) →
        (10 < vHave.length → 2 * t.nHeight f + 20 + nStep ≤ 2 * t.nHeight A) → ∀ l, t.Covers A f (p :: l) := by
      intro f hf hnear hfar l
      refine ⟨[], p, l, rfl, fun a ha => absurd ha not_mem_nil, hstep.mem, hf, ?_⟩
      rcases hstep.distance with ⟨hk, rfl, hA⟩ | ⟨hk, hlarge, hA, -⟩
      · have := hnear hk
        omega
      · have := hfar hk
        omega
    rw [IndexedTree.getLocatorLoop]
    dsimp only
    by_cases hgenesis : t.nHeight p = 0
    · rw [if_pos hgenesis]
      exact ⟨[p], rfl, fun f _ hnear hfar => hself f (by omega) hnear hfar []⟩
    rw [if_neg hgenesis]
    obtain ⟨q, hq⟩ := t.exists_getAncestor (p := p) (show 0 ≤ max ((t.nHeight p : ℤ) - nStep) 0 by omega) (by omega)
    obtain ⟨hqp, hheight⟩ := t.getAncestor_mem hq
    have hqA : q ∈ t.lineage A := t.leveled.trans hqp hstep.mem
    rw [h.ancestor_eq (by omega) (by omega), hq, length_append, length_singleton]
    -- the next iteration covers what is below this block
    have hnext : ∀ nStep', t.LocatorStep A q nStep' (vHave.length + 1) →
        (∀ f, t.nHeight f < t.nHeight p → (vHave.length + 1 ≤ 10 → t.nHeight f ≤ t.nHeight q) ∧
          (10 < vHave.length + 1 → 2 * t.nHeight f + 20 + nStep' ≤ 2 * t.nHeight A)) →
        t.nHeight q < t.nHeight p →
        ∃ l, t.getLocatorLoop chain fuel (some q) nStep' (vHave ++ [p]) = .ok (vHave ++ l) ∧
          ∀ f ∈ t.lineage A, (vHave.length ≤ 10 → t.nHeight f ≤ t.nHeight p) →
            (10 < vHave.length → 2 * t.nHeight f + 20 + nStep ≤ 2 * t.nHeight A) → t.Covers A f l := by
      intro nStep' hstep' hbelow hlt
      obtain ⟨l, hrun, hcovers⟩ := ih (show t.LocatorStep A q nStep' (vHave ++ [p]).length by rwa [length_append])
        (by omega)
      refine ⟨p :: l, by rw [hrun, append_assoc]; rfl, fun f hf hnear hfar => ?_⟩
      by_cases hle : t.nHeight p ≤ t.nHeight f
      · exact hself f hle hnear hfar l
      · obtain ⟨hnear', hfar'⟩ := hbelow f (by omega)
        obtain ⟨pre, x, post, rfl, hpre, hx⟩ := hcovers f hf (by rwa [length_append]) (by rwa [length_append])
        refine ⟨p :: pre, x, post, rfl, ?_, hx⟩
        rw [forall_mem_cons]
        exact ⟨⟨hstep.mem, by omega⟩, hpre⟩
    rcases hstep.distance with ⟨hk, rfl, hA⟩ | ⟨hk, hlarge, hA, hexact⟩
    · by_cases hlast : vHave.length + 1 > 10
      · rw [if_pos hlast, if_neg (by decide)]
        apply hnext 2 ⟨hqA, Or.inr (by omega)⟩ (fun f hf => by omega) (by omega)
      · rw [if_neg hlast]
        apply hnext 1 ⟨hqA, Or.inl (by omega)⟩ (fun f hf => by omega) (by omega)
    · have hexact := hexact hgenesis
      rw [if_pos (by omega), if_neg (by omega)]
      exact hnext (nStep * 2) ⟨hqA, Or.inr (by omega)⟩ (fun f hf => by omega) (by omega)

/-- A locator covers each block of the branch. -/
theorem Tracks.getLocator (h : t.Tracks chain top) {pindex : Option Ptr} (hA : pindex.or top = some A)
    (hbound : t.nHeight A < 2 ^ 30) :
    ∃ vHave, t.getLocator chain pindex = .ok vHave ∧ ∀ f ∈ t.lineage A, t.Covers A f vHave := by
  have hstep : t.LocatorStep A A 1 ([] : List Ptr).length := ⟨t.leveled.self_mem A, Or.inl ⟨Nat.zero_le 10, rfl, rfl⟩⟩
  obtain ⟨l, hrun, hcovers⟩ := h.getLocatorLoop hbound hstep (Nat.lt_succ_self (t.nHeight A))
  refine ⟨l, ?_, fun f hf => hcovers f hf (fun _ => t.leveled.depth_le hf) (fun hlt => (nomatch hlt))⟩
  rw [IndexedTree.getLocator, h.tip, hA]
  exact hrun

lemma Tracks.findForkInGlobalIndex {B : Ptr} (h : t.Tracks chain (some B)) {mapBlockIndex : Finset Ptr}
    (hknown : ∀ b ∈ t.lineage B, b ∈ mapBlockIndex) (hf : ∀ c, c ∈ t.lineage f ↔ c ∈ t.lineage A ∧ c ∈ t.lineage B)
    {vHave : List Ptr} (hcovers : t.Covers A f vHave) :
    ∃ r, t.findForkInGlobalIndex mapBlockIndex chain vHave = some r ∧ r ∈ t.lineage A ∧ r ∈ t.lineage B ∧
      2 * t.nHeight f ≤ t.nHeight A + t.nHeight r := by
  obtain ⟨pre, x, post, rfl, hpre, hx, hle, hfar⟩ := hcovers
  have hfmem := (hf f).mp (t.leveled.self_mem f)
  have hfA := t.leveled.depth_le hfmem.1
  -- a block of the first branch is on the second one if it is not above `f`
  have hmem : ∀ a ∈ t.lineage A, a ∈ t.lineage B ↔ t.nHeight a ≤ t.nHeight f := by
    intro a ha
    constructor
    · exact fun hB => t.leveled.depth_le ((hf a).mpr ⟨ha, hB⟩)
    · intro hle
      rcases t.leveled.total ha hfmem.1 with haf | hfa
      · exact ((hf a).mp haf).2
      · rw [t.leveled.eq_of_depth_le hfa hle] at hfmem
        exact hfmem.2
  induction pre with
  | nil =>
    have hxB := (hmem x hx).mpr hle
    rw [nil_append, IndexedTree.findForkInGlobalIndex, if_pos (hknown x hxB), if_pos (h.contains.mpr hxB)]
    exact ⟨x, rfl, hx, hxB, hfar⟩
  | cons a pre ih =>
    rw [forall_mem_cons] at hpre
    obtain ⟨⟨ha, habove⟩, hpre⟩ := hpre
    rw [cons_append, IndexedTree.findForkInGlobalIndex]
    by_cases hfound : a ∈ mapBlockIndex
    · have hnot : ¬t.contains chain a = true := by
        rw [h.contains, branch_some, hmem a ha]
        omega
      rw [if_pos hfound, if_neg hnot]
      by_cases htip : t.getAncestor a chain.height = chain.tip
      · rw [if_pos htip, h.tip]
        rw [h.tip] at htip
        have hBA := t.leveled.trans (t.getAncestor_mem htip).1 ha
        have hself := t.leveled.self_mem B
        have hBf := t.leveled.depth_le ((hf B).mpr ⟨hBA, hself⟩)
        have hfB := t.leveled.depth_le hfmem.2
        exact ⟨B, rfl, hBA, hself, by omega⟩
      · rw [if_neg htip]
        exact ih hpre
    · rw [if_neg hfound]
      exact ih hpre

end Locator

section Chain

/-- The highest common ancestor. -/
def HighestCommon (a b f : Ptr) : Prop :=
  (f ∈ t.lineage a ∧ f ∈ t.lineage b) ∧ ∀ c, c ∈ t.lineage a → c ∈ t.lineage b → t.nHeight c ≤ t.nHeight f

lemma exists_highestCommon {genesis : Ptr} (hroot : ∀ b, genesis ∈ t.lineage b) {a b : Ptr} {r : Option Ptr}
    (hr : ∀ c, c ∈ t.branch r ↔ c ∈ t.lineage a ∧ c ∈ t.lineage b) :
    ∃ f, r = some f ∧ t.HighestCommon a b f := by
  cases r with
  | none => exact absurd ((hr genesis).mpr ⟨hroot a, hroot b⟩) not_mem_nil
  | some f =>
    exact ⟨f, rfl, (hr f).mp (t.leveled.self_mem f), fun c hca hcb => t.leveled.depth_le ((hr c).mpr ⟨hca, hcb⟩)⟩

variable [DecidableEq Ptr]

/-- After any calls of `SetTip` the vector is the branch of the last tip. `FindFork` and `LastCommonAncestor` return the
last common block. From the locator of a block `A` another node, whose tip is `B`, finds a common block that is at most
twice as far from `A` as the last one. The chain of the sender is any. -/
theorem chain_forks_and_locators {genesis : Ptr} (hroot : ∀ b, genesis ∈ t.lineage b) (tips : List (Option Ptr)) :
    (t.setTips tips).vChain.length = ((tips.getLast?.join).elim 0 fun tip => t.nHeight tip + 1) ∧
    (∀ tip, tips.getLast?.join = some tip → ∀ i ≤ t.nHeight tip, ∃ a, (t.setTips tips).vChain[i]? = some (some a) ∧
      a ∈ t.lineage tip ∧ t.nHeight a = i) ∧
    (∀ tip p, tips.getLast?.join = some tip →
      ∃ f, t.findFork (t.setTips tips) (some p) = some f ∧ t.HighestCommon p tip f) ∧
    (∀ a b, ∃ f, t.lastCommonAncestor a b = some (some f) ∧ t.HighestCommon a b f) ∧
    ∀ A pindex, pindex.or tips.getLast?.join = some A → t.nHeight A < 2 ^ 30 →
      ∃ vHave, t.getLocator (t.setTips tips) pindex = .ok vHave ∧
        ∀ (tips' : List (Option Ptr)) (B : Ptr) (mapBlockIndex : Finset Ptr), tips'.getLast?.join = some B →
          (∀ b ∈ t.lineage B, b ∈ mapBlockIndex) →
          ∃ r, t.findForkInGlobalIndex mapBlockIndex (t.setTips tips') vHave = some r ∧
            (r ∈ t.lineage A ∧ r ∈ t.lineage B) ∧
            ∀ f, t.HighestCommon A B f → (t.nHeight A : ℤ) - t.nHeight r ≤ 2 * (t.nHeight A - t.nHeight f) := by
  have htracks := tracks_setTips (t := t) tips
  refine ⟨?_, fun tip htip i hi => ?_, fun tip p htip => ?_, fun a b => ?_, fun A pindex hA hbound => ?_⟩
  · rw [htracks, length_map, length_reverse]
    cases tips.getLast?.join with
    | none => rfl
    | some tip => exact t.length_lineage tip
  · rw [htip] at htracks
    obtain ⟨a, ha⟩ := t.exists_getAncestor (p := tip) (show (0 : ℤ) ≤ i by omega) (by omega)
    obtain ⟨hmem, hheight⟩ := t.getAncestor_mem ha
    have hheight : t.nHeight a = i := by exact_mod_cast hheight
    exact ⟨a, htracks.getElem?.mpr ⟨hmem, hheight⟩, hmem, hheight⟩
  · rw [htip] at htracks
    exact t.exists_highestCommon hroot (fun c => htracks.findFork (some p))
  · obtain ⟨r, hrun, hr⟩ := lastCommonAncestor_spec (t := t) a b
    obtain ⟨f, rfl, hf⟩ := t.exists_highestCommon hroot hr
    exact ⟨f, hrun, hf⟩
  · obtain ⟨vHave, hrun, hcovers⟩ := htracks.getLocator hA hbound
    refine ⟨vHave, hrun, fun tips' B mapBlockIndex hB hknown => ?_⟩
    have htracks' := tracks_setTips (t := t) tips'
    rw [hB] at htracks'
    -- the last common block, as it is found from the chain of the receiver
    obtain ⟨f, hfork, hf⟩ := t.exists_highestCommon hroot (fun c => htracks'.findFork (some A))
    have hbranch : ∀ c, c ∈ t.lineage f ↔ c ∈ t.lineage A ∧ c ∈ t.lineage B := by
      intro c
      have hc := htracks'.findFork (c := c) (some A)
      rwa [hfork] at hc
    obtain ⟨r, hfound, hrA, hrB, hfar⟩ := htracks'.findForkInGlobalIndex hknown hbranch (hcovers f hf.1.1)
    refine ⟨r, hfound, ⟨hrA, hrB⟩, fun f' hf' => ?_⟩
    have := hf.2 f' hf'.1.1 hf'.1.2
    omega

def forkedTree : IndexedTree (Fin 4) where
  pprev p := if p = 0 then none else if p = 3 then some 0 else some (p - 1)
  pskip p := if p = 0 then none else some 0
  nHeight p := if p = 3 then 1 else p
  nVersion _ := 0
  nTime _ := 0
  leveled := ⟨by decide, by decide⟩
  skips := by decide +kernel

/-- The sender has switched from the fork to the longer branch, and the receiver is on the fork. -/
theorem chain_forks_and_locators_forkedTree :
    ∃ vHave r, forkedTree.getLocator (forkedTree.setTips [some 3, some 2]) none = .ok vHave ∧
      forkedTree.findForkInGlobalIndex {0, 3} (forkedTree.setTips [some 3]) vHave = some r ∧
      r ∈ forkedTree.lineage 2 ∧ r ∈ forkedTree.lineage 3 := by
  have hroot : ∀ b, (0 : Fin 4) ∈ forkedTree.lineage b := by decide +kernel
  obtain ⟨-, -, -, -, hlocator⟩ := forkedTree.chain_forks_and_locators hroot [some 3, some 2]
  obtain ⟨vHave, hrun, hfork⟩ := hlocator 2 none rfl (by decide +kernel)
  obtain ⟨r, hfound, hcommon, -⟩ := hfork [some 3] 3 {0, 3} rfl (by decide +kernel)
  exact ⟨vHave, r, hrun, hfound, hcommon⟩

end Chain

end IndexedTree

end MutableBitcoin
