import MutableBitcoin.Lib.Lineage
import MutableBitcoin.Lib.Median
import Mathlib.Data.Nat.Bitwise

/-!
# Ancestors and median times

`GetAncestor`, `BuildSkip` and `GetMedianTimePast` of `chain.h` and `chain.cpp`. Pointers to the entries of the
block index are of any type.
-/

namespace MutableBitcoin
open Lib Function List Option

/-- `InvertLowestOne`. -/
def invertLowestOne (n : ℕ) : ℕ := n &&& (n - 1)

def getSkipHeight (height : ℕ) : ℕ :=
  if height < 2 then 0
  else if height &&& 1 = 1 then invertLowestOne (invertLowestOne (height - 1)) + 1
  else invertLowestOne height

lemma invertLowestOne_le (n : ℕ) : invertLowestOne n ≤ n - 1 := Nat.and_le_right

lemma getSkipHeight_lt {height : ℕ} (h : 0 < height) : getSkipHeight height < height := by
  have hle := invertLowestOne_le height
  have hle₁ := invertLowestOne_le (height - 1)
  have hle₂ := invertLowestOne_le (invertLowestOne (height - 1))
  unfold getSkipHeight
  split_ifs <;> omega

/-- The fields of the block index that the searches read. -/
structure BlockEntries (Ptr : Type) where
  pprev : Ptr → Option Ptr
  pskip : Ptr → Option Ptr
  nHeight : Ptr → ℕ
  nVersion : Ptr → Int32
  nTime : Ptr → UInt32

namespace BlockEntries

variable {Ptr : Type} (t : BlockEntries Ptr)

/-- The loop of `GetAncestor`. -/
def getAncestorWalk (pindexWalk : Ptr) (heightWalk height : ℕ) : Option Ptr :=
  if heightWalk ≤ height then some pindexWalk
  else
    let heightSkip := getSkipHeight heightWalk
    let heightSkipPrev := getSkipHeight (heightWalk - 1)
    -- only follow `pskip` if `pprev->pskip` isn't better than `pskip->pprev`
    let fSkip := heightSkip = height ∨
      heightSkip > height ∧ ¬(heightSkipPrev + 2 < heightSkip ∧ heightSkipPrev ≥ height)
    match if fSkip then t.pskip pindexWalk else none with
    | some pskip => getAncestorWalk pskip heightSkip height
    | none =>
      match t.pprev pindexWalk with
      | none => none
      | some pprev => getAncestorWalk pprev (heightWalk - 1) height
termination_by heightWalk
decreasing_by
  · exact getSkipHeight_lt (by omega)
  · omega

def getAncestor (pindex : Ptr) (height : ℤ) : Option Ptr :=
  if height > t.nHeight pindex ∨ height < 0 then none
  else t.getAncestorWalk pindex (t.nHeight pindex) height.toNat

def buildSkip (pindex : Ptr) : Option Ptr :=
  (t.pprev pindex).bind (fun pprev => t.getAncestor pprev (getSkipHeight (t.nHeight pindex)))

/-- The times of a block and those before it, `n` of them at most. -/
def pastTimes : ℕ → Option Ptr → List ℤ
  | n + 1, some pindex => (t.nTime pindex).toNat :: pastTimes n (t.pprev pindex)
  | _, _ => []

def getMedianTimePast (pindex : Ptr) : ℤ := (median (t.pastTimes 11 (some pindex))).getD 0

/-- The time of a block is above the median time past of its parent. -/
def TimesRise : Prop := ∀ b p, t.pprev b = some p → t.getMedianTimePast p < (t.nTime b).toNat

/-- The skip pointer is the ancestor at the height that `BuildSkip` asks for. -/
def SkipsTo (p : Ptr) : Prop :=
  ∀ s, t.pskip p = some s → s ∈ lineage t.pprev t.nHeight p ∧ t.nHeight s = getSkipHeight (t.nHeight p)

lemma getAncestorWalk_of_skipsTo (hleveled : Leveled t.pprev t.nHeight) {p : Ptr}
    (hskips : ∀ q ∈ lineage t.pprev t.nHeight p, t.SkipsTo q) {height : ℕ} (hle : height ≤ t.nHeight p) :
    ∃ a, t.getAncestorWalk p (t.nHeight p) height = some a ∧ a ∈ lineage t.pprev t.nHeight p ∧
      t.nHeight a = height := by
  induction hn : t.nHeight p using Nat.strong_induction_on generalizing p with
  | _ n ih =>
    subst hn
    have hwalk : ∀ q ∈ lineage t.pprev t.nHeight p, t.nHeight q < t.nHeight p → height ≤ t.nHeight q →
        ∃ a, t.getAncestorWalk q (t.nHeight q) height = some a ∧ a ∈ lineage t.pprev t.nHeight p ∧
          t.nHeight a = height := by
      intro q hq hlt hle
      obtain ⟨a, hrun, ha, hheight⟩ := ih _ hlt (fun c hc => hskips c (hleveled.trans hc hq)) hle rfl
      exact ⟨a, hrun, hleveled.trans ha hq, hheight⟩
    rw [BlockEntries.getAncestorWalk]
    by_cases hend : t.nHeight p ≤ height
    · rw [if_pos hend]
      exact ⟨p, rfl, hleveled.self_mem p, by omega⟩
    rw [if_neg hend]
    dsimp only
    cases hskip : (if getSkipHeight (t.nHeight p) = height ∨ getSkipHeight (t.nHeight p) > height ∧
        ¬(getSkipHeight (t.nHeight p - 1) + 2 < getSkipHeight (t.nHeight p) ∧
          getSkipHeight (t.nHeight p - 1) ≥ height) then t.pskip p else none) with
    | none =>
      obtain ⟨q, hq⟩ : ∃ q, t.pprev p = some q := by
        rw [← ne_none_iff_exists']
        intro hnone
        have := hleveled.root p hnone
        omega
      have hstep := hleveled.step p q hq
      dsimp only
      rw [hq, show t.nHeight p - 1 = t.nHeight q by omega]
      exact hwalk q (hleveled.parent_mem hq) (by omega) (by omega)
    | some s =>
      obtain ⟨hcond, hs⟩ := ite_none_right_eq_some.mp hskip
      have hlt := getSkipHeight_lt (show 0 < t.nHeight p by omega)
      obtain ⟨hmem, hheight⟩ := hskips p (hleveled.self_mem p) s hs
      dsimp only
      rw [← hheight]
      exact hwalk s hmem (by omega) (by omega)

def ofForest (pprev : Ptr → Option Ptr) (nHeight : Ptr → ℕ) : BlockEntries Ptr where
  pprev := pprev
  pskip p := if (pprev p).isSome then (lineage pprev nHeight p).reverse[getSkipHeight (nHeight p)]? else none
  nHeight := nHeight
  nVersion _ := 0
  nTime _ := 0

lemma pskip_ofForest {pprev : Ptr → Option Ptr} {nHeight : Ptr → ℕ} (h : Leveled pprev nHeight) (p : Ptr) :
    (ofForest pprev nHeight).pskip p = (ofForest pprev nHeight).buildSkip p := by
  unfold buildSkip
  cases hp : pprev p with
  | none =>
    rw [show (ofForest pprev nHeight).pprev p = none from hp]
    exact if_neg (by rw [hp]; exact Bool.false_ne_true)
  | some q =>
    have hstep := h.step p q hp
    have hlt := getSkipHeight_lt (show 0 < nHeight p by omega)
    have hskips : ∀ c ∈ lineage pprev nHeight q, (ofForest pprev nHeight).SkipsTo c :=
      fun c _ s hs => (h.getElem?_reverse c).mp (ite_none_right_eq_some.mp hs).2
    obtain ⟨a, hrun, ha, hheight⟩ := (ofForest pprev nHeight).getAncestorWalk_of_skipsTo h hskips
      (show getSkipHeight (nHeight p) ≤ nHeight q by omega)
    have hget : (ofForest pprev nHeight).getAncestor q (getSkipHeight (nHeight p)) = some a := by
      have hin : ¬((getSkipHeight (nHeight p) : ℤ) > nHeight q ∨ (getSkipHeight (nHeight p) : ℤ) < 0) := by omega
      exact (if_neg hin).trans hrun
    rw [show (ofForest pprev nHeight).pprev p = some q from hp, bind_some]
    have hplace := (h.getElem?_reverse p).mpr ⟨h.trans ha (h.parent_mem hp), hheight⟩
    exact ((if_pos (by rw [hp]; rfl)).trans hplace).trans hget.symm

end BlockEntries

/-- Entries as `AddToBlockIndex` makes them, each on its parent. -/
structure IndexedTree (Ptr : Type) extends BlockEntries Ptr where
  leveled : Leveled pprev nHeight
  skips : ∀ p, pskip p = toBlockEntries.buildSkip p

namespace IndexedTree

variable {Ptr : Type} (t : IndexedTree Ptr) {a b p : Ptr}

def ofLeveled (pprev : Ptr → Option Ptr) (nHeight : Ptr → ℕ) (h : Leveled pprev nHeight) : IndexedTree Ptr where
  toBlockEntries := BlockEntries.ofForest pprev nHeight
  leveled := h
  skips := BlockEntries.pskip_ofForest h

abbrev lineage (b : Ptr) : List Ptr := Lib.lineage t.pprev t.nHeight b

def branch (pindex : Option Ptr) : List Ptr := pindex.elim [] t.lineage

@[simp] lemma branch_none : t.branch none = [] := rfl

@[simp] lemma branch_some (p : Ptr) : t.branch (some p) = t.lineage p := rfl

lemma length_lineage (b : Ptr) : (t.lineage b).length = t.nHeight b + 1 := t.leveled.length_lineage b

lemma lineage_eq (p : Ptr) : t.lineage p = p :: t.branch (t.pprev p) := by
  cases hp : t.pprev p with
  | none => exact t.leveled.lineage_root hp
  | some q => exact t.leveled.lineage_step hp

lemma mem_branch_trans {pindex : Option Ptr} (ha : a ∈ t.lineage b) (hb : b ∈ t.branch pindex) : a ∈ t.branch pindex := by
  cases pindex with
  | none => cases hb
  | some p => exact t.leveled.trans ha hb

lemma mem_branch_pprev (h : a ∈ t.branch (t.pprev b)) : a ∈ t.lineage b := by
  rw [t.lineage_eq b]
  exact mem_cons_of_mem _ h

lemma length_branch_pprev (p : Ptr) : (t.branch (t.pprev p)).length = t.nHeight p := by
  have h := congrArg List.length (t.lineage_eq p)
  rw [t.length_lineage, length_cons] at h
  omega

lemma length_branch_pprev_lt (p : Ptr) : (t.branch (t.pprev p)).length < (t.branch (some p)).length := by
  rw [branch_some, t.length_lineage, t.length_branch_pprev]
  exact Nat.lt_succ_self _

section GetAncestor

lemma skipsTo (p : Ptr) : t.SkipsTo p := by
  induction hn : t.nHeight p using Nat.strong_induction_on generalizing p with
  | _ n ih =>
    subst hn
    intro s hs
    rw [t.skips, BlockEntries.buildSkip] at hs
    obtain ⟨q, hq, hs⟩ := bind_eq_some_iff.mp hs
    have hstep := t.leveled.step p q hq
    have hlt := getSkipHeight_lt (show 0 < t.nHeight p by omega)
    obtain ⟨a, hrun, ha, hheight⟩ := t.getAncestorWalk_of_skipsTo t.leveled
      (fun c hc => ih _ (by have := t.leveled.depth_le hc; omega) c rfl)
      (show getSkipHeight (t.nHeight p) ≤ t.nHeight q by omega)
    rw [BlockEntries.getAncestor, if_neg (by omega), Int.toNat_natCast, hrun] at hs
    obtain rfl := Option.some.inj hs
    exact ⟨t.leveled.trans ha (t.leveled.parent_mem hq), hheight⟩

lemma getAncestorWalk_spec (p : Ptr) {height : ℕ} (hle : height ≤ t.nHeight p) :
    ∃ a, t.getAncestorWalk p (t.nHeight p) height = some a ∧ a ∈ t.lineage p ∧ t.nHeight a = height :=
  t.getAncestorWalk_of_skipsTo t.leveled (fun q _ => t.skipsTo q) hle

/-- The blocks from `n` blocks before on. -/
theorem branch_getAncestor (p : Ptr) (n : ℕ) :
    t.branch (t.getAncestor p (t.nHeight p - n)) = (t.lineage p).drop n := by
  unfold BlockEntries.getAncestor
  by_cases hn : t.nHeight p < n
  · rw [if_pos (by omega), branch_none, drop_of_length_le (by rw [t.length_lineage]; omega)]
  · rw [if_neg (by omega)]
    obtain ⟨a, hrun, ha, hheight⟩ := t.getAncestorWalk_spec p
      (show ((t.nHeight p : ℤ) - n).toNat ≤ t.nHeight p by omega)
    rw [hrun, branch_some]
    obtain ⟨below, hbelow, -⟩ := t.leveled.eq_append_of_mem ha
    have hlen := congrArg List.length hbelow
    rw [length_append, t.length_lineage, t.length_lineage] at hlen
    rw [show t.lineage p = below ++ t.lineage a from hbelow, drop_left' (by omega)]

lemma getAncestor_mem {height : ℤ} (h : t.getAncestor p height = some a) :
    a ∈ t.lineage p ∧ (t.nHeight a : ℤ) = height := by
  unfold BlockEntries.getAncestor at h
  split_ifs at h with hout
  obtain ⟨a', hrun, ha, hheight⟩ := t.getAncestorWalk_spec p (show height.toNat ≤ t.nHeight p by omega)
  obtain rfl := Option.some.inj (h.symm.trans hrun)
  exact ⟨ha, by omega⟩

lemma exists_getAncestor {height : ℤ} (h : 0 ≤ height) (hle : height ≤ t.nHeight p) :
    ∃ a, t.getAncestor p height = some a := by
  unfold BlockEntries.getAncestor
  obtain ⟨a, hrun, -⟩ := t.getAncestorWalk_spec p (show height.toNat ≤ t.nHeight p by omega)
  rw [if_neg (by omega), hrun]
  exact ⟨a, rfl⟩

end GetAncestor

section MedianTime

lemma pastTimes_take (n : ℕ) (p : Option Ptr) : t.pastTimes n p = (t.pastTimes (n + 1) p).take n := by
  induction n generalizing p with
  | zero =>
    rw [take_zero]
    cases p <;> rfl
  | succ n ih =>
    cases p with
    | none => rfl
    | some p =>
      rw [BlockEntries.pastTimes, ih, BlockEntries.pastTimes, take_succ_cons]

lemma length_pastTimes_le (n : ℕ) (p : Option Ptr) : (t.pastTimes n p).length ≤ n := by
  rw [t.pastTimes_take, length_take]
  exact min_le_left _ _

lemma median_pastTimes (p : Ptr) : median (t.pastTimes 11 (some p)) = some (t.getMedianTimePast p) := by
  obtain ⟨m, hm⟩ := median_of_ne_nil (l := t.pastTimes 11 (some p)) (cons_ne_nil _ _)
  rw [BlockEntries.getMedianTimePast, hm]
  rfl

lemma getMedianTimePast_le_step (hb : t.pprev b = some p) (htime : t.getMedianTimePast p < (t.nTime b).toNat) :
    t.getMedianTimePast p ≤ t.getMedianTimePast b := by
  have htimes : t.pastTimes 11 (some b) = (((t.nTime b).toNat : ℤ) :: t.pastTimes 11 (some p)).take 11 := by
    rw [BlockEntries.pastTimes, hb, t.pastTimes_take, take_succ_cons]
  apply median_le_median_cons (by decide) (t.length_pastTimes_le 11 (some p)) (t.median_pastTimes p) htime.le
  rw [← htimes, t.median_pastTimes]

/-- Along a chain on which the times rise. -/
theorem getMedianTimePast_le_of_rise
    (h : ∀ c ∈ t.lineage b, ∀ p, t.pprev c = some p → t.getMedianTimePast p < (t.nTime c).toNat)
    (ha : a ∈ t.lineage b) : t.getMedianTimePast a ≤ t.getMedianTimePast b := by
  induction b using t.leveled.induction with
  | hroot b hb => rw [(t.leveled.mem_root hb).mp ha]
  | hstep b p hb ih =>
    rcases (t.leveled.mem_step hb).mp ha with rfl | hmem
    · exact le_rfl
    · have hrest := ih (fun c hc => h c ((t.leveled.mem_step hb).mpr (Or.inr hc))) hmem
      exact hrest.trans (t.getMedianTimePast_le_step hb (h b (t.leveled.self_mem b) p hb))

/-- The median time past of a block is not after that of a later one. -/
theorem getMedianTimePast_le (h : t.TimesRise) (ha : a ∈ t.lineage b) :
    t.getMedianTimePast a ≤ t.getMedianTimePast b :=
  t.getMedianTimePast_le_of_rise (fun c _ p => h c p) ha

end MedianTime

end IndexedTree

/-!
## Skip pointers of a growing index

The entries are set on their parents one by one, as `AddToBlockIndex` does, or all at once, as
`LoadBlockIndex` does.
-/

namespace BlockEntries

variable {Ptr : Type}

/-- `GetAncestor`, with no result where `assert(pindexWalk->pprev)` fails. -/
def getAncestorAsserted (t : BlockEntries Ptr) (pindex : Ptr) (height : ℤ) : Option (Option Ptr) :=
  if height > t.nHeight pindex ∨ height < 0 then some none
  else (t.getAncestorWalk pindex (t.nHeight pindex) height.toNat).map some

lemma getAncestor_eq_join (t : BlockEntries Ptr) (pindex : Ptr) (height : ℤ) :
    t.getAncestor pindex height = (t.getAncestorAsserted pindex height).join := by
  unfold getAncestor getAncestorAsserted
  split_ifs
  · rfl
  · cases t.getAncestorWalk pindex (t.nHeight pindex) height.toNat <;> rfl

section Build

variable [DecidableEq Ptr]

def place (t : BlockEntries Ptr) (pindex : Ptr) (pprev : Option Ptr) : BlockEntries Ptr :=
  { t with
    pprev := Function.update t.pprev pindex pprev
    nHeight := Function.update t.nHeight pindex (pprev.elim 0 (fun p => t.nHeight p + 1)) }

/-- `BuildSkip`, which leaves the pointer of an entry without parent. -/
def setSkip (t : BlockEntries Ptr) (pindex : Ptr) : BlockEntries Ptr :=
  if (t.pprev pindex).isSome then { t with pskip := Function.update t.pskip pindex (t.buildSkip pindex) } else t

/-- The entries as they are built, with those for which `BuildSkip` was called. A pointer that is not yet in use
is like that of an entry without parent or child. -/
inductive Built : BlockEntries Ptr → List Ptr → Prop
  | load (t : BlockEntries Ptr) (hleveled : Leveled t.pprev t.nHeight) (hnull : ∀ b, t.pskip b = none) : Built t []
  | place {t : BlockEntries Ptr} {skipped : List Ptr} (pindex : Ptr) (pprev : Option Ptr) (h : Built t skipped)
      (hnew : t.pprev pindex = none ∧ t.pskip pindex = none) (hleaf : ∀ b, t.pprev b ≠ some pindex)
      (hself : pprev ≠ some pindex) : Built (t.place pindex pprev) skipped
  | buildSkip {t : BlockEntries Ptr} {skipped : List Ptr} (pindex : Ptr) (h : Built t skipped)
      (hparent : ∀ p, t.pprev pindex = some p → p ∈ skipped) : Built (t.setSkip pindex) (pindex :: skipped)

end Build

/-- Heights grow by one along the parents, and every skip pointer is right. -/
structure SkipForest (t : BlockEntries Ptr) : Prop where
  leveled : Leveled t.pprev t.nHeight
  skips : ∀ p, t.SkipsTo p

namespace SkipForest

variable {t : BlockEntries Ptr} {pindex : Ptr} {pprev : Option Ptr}

lemma getAncestor_spec (h : SkipForest t) (p : Ptr) {height : ℤ} (hzero : 0 ≤ height) (hle : height ≤ t.nHeight p) :
    ∃ a, t.getAncestorAsserted p height = some (some a) ∧ a ∈ lineage t.pprev t.nHeight p ∧
      (t.nHeight a : ℤ) = height := by
  obtain ⟨a, hrun, ha, hheight⟩ := t.getAncestorWalk_of_skipsTo h.leveled (fun q _ => h.skips q)
    (show height.toNat ≤ t.nHeight p by omega)
  refine ⟨a, ?_, ha, by omega⟩
  rw [getAncestorAsserted, if_neg (by omega), hrun]
  rfl

variable [DecidableEq Ptr]

lemma place (h : SkipForest t) (hnew : t.pprev pindex = none ∧ t.pskip pindex = none)
    (hleaf : ∀ b, t.pprev b ≠ some pindex) (hself : pprev ≠ some pindex) : SkipForest (t.place pindex pprev) := by
  have hother : ∀ q, q ≠ pindex → (t.place pindex pprev).pprev q = t.pprev q ∧
      (t.place pindex pprev).nHeight q = t.nHeight q := by
    intro q hq
    exact ⟨update_of_ne hq _ _, update_of_ne hq _ _⟩
  have hpprev : (t.place pindex pprev).pprev pindex = pprev := update_self _ _ _
  have hheight : (t.place pindex pprev).nHeight pindex = pprev.elim 0 (fun p => t.nHeight p + 1) :=
    update_self _ _ _
  have hleveled : Leveled (t.place pindex pprev).pprev (t.place pindex pprev).nHeight := by
    constructor
    · intro b hb
      by_cases hbp : b = pindex
      · subst hbp
        rw [hpprev] at hb
        rw [hheight, hb]
        rfl
      · rw [(hother b hbp).2]
        exact h.leveled.root b ((hother b hbp).1.symm.trans hb)
    · intro b p hb
      by_cases hbp : b = pindex
      · subst hbp
        rw [hpprev] at hb
        subst hb
        rw [hheight, (hother p (fun heq => hself (congrArg some heq))).2]
        rfl
      · have hp := (hother b hbp).1.symm.trans hb
        rw [(hother b hbp).2, (hother p (fun heq => hleaf b (heq ▸ hp))).2]
        exact h.leveled.step b p hp
  -- the new entry is on no lineage but its own
  have hlineage : ∀ q, q ≠ pindex → ∀ s ∈ lineage t.pprev t.nHeight q, s ≠ pindex ∧
      s ∈ lineage (t.place pindex pprev).pprev (t.place pindex pprev).nHeight q := by
    intro q
    induction q using h.leveled.induction with
    | hroot q hq =>
      intro hne s hs
      obtain rfl := (h.leveled.mem_root hq).mp hs
      exact ⟨hne, hleveled.self_mem s⟩
    | hstep q p hq ih =>
      intro hne s hs
      rcases (h.leveled.mem_step hq).mp hs with rfl | hmem
      · exact ⟨hne, hleveled.self_mem s⟩
      · obtain ⟨hs, hplaced⟩ := ih (fun heq => hleaf q (heq ▸ hq)) s hmem
        exact ⟨hs, (hleveled.mem_step ((hother q hne).1.trans hq)).mpr (Or.inr hplaced)⟩
  refine ⟨hleveled, fun q s hs => ?_⟩
  replace hs : t.pskip q = some s := hs
  have hq : q ≠ pindex := by
    rintro rfl
    rw [hnew.2] at hs
    cases hs
  obtain ⟨hmem, hskip⟩ := h.skips q s hs
  obtain ⟨hne, hplaced⟩ := hlineage q hq s hmem
  rw [(hother q hq).2, (hother s hne).2]
  exact ⟨hplaced, hskip⟩

lemma setSkip (h : SkipForest t) : SkipForest (t.setSkip pindex) := by
  unfold BlockEntries.setSkip
  cases hp : t.pprev pindex with
  | none => exact h
  | some p =>
    rw [isSome_some, if_pos rfl]
    refine ⟨h.leveled, fun q s hs => ?_⟩
    by_cases hq : q = pindex
    · subst hq
      have hstep := h.leveled.step q p hp
      have hlt := getSkipHeight_lt (show 0 < t.nHeight q by omega)
      obtain ⟨a, hrun, ha, hheight⟩ := h.getAncestor_spec p
        (show (0 : ℤ) ≤ getSkipHeight (t.nHeight q) by omega) (by omega)
      replace hs : t.buildSkip q = some s := (update_self q (t.buildSkip q) t.pskip).symm.trans hs
      rw [buildSkip, hp, bind_some, getAncestor_eq_join, hrun] at hs
      obtain rfl := Option.some.inj hs
      exact ⟨h.leveled.trans ha (h.leveled.parent_mem hp), by exact_mod_cast hheight⟩
    · exact h.skips q s ((update_of_ne hq (t.buildSkip pindex) t.pskip).symm.trans hs)

end SkipForest

variable [DecidableEq Ptr] {t : BlockEntries Ptr} {skipped : List Ptr}

lemma Built.skipForest (h : Built t skipped) : SkipForest t := by
  induction h with
  | load t hleveled hnull => exact ⟨hleveled, fun p s hs => by rw [hnull] at hs; cases hs⟩
  | place pindex pprev h hnew hleaf hself ih => exact ih.place hnew hleaf hself
  | buildSkip pindex h hparent ih => exact ih.setSkip

/-- `GetAncestor` returns the one ancestor at the height, and null outside of the heights of the branch. The
assertion holds in every call, also in those of `BuildSkip`. -/
theorem getAncestor_built (h : Built t skipped) (b : Ptr) (height : ℤ) :
    (0 ≤ height ∧ height ≤ t.nHeight b → ∃ a, t.getAncestorAsserted b height = some (some a) ∧
      ∀ c, (Relation.ReflTransGen (fun c p => t.pprev c = some p) b c ∧ (t.nHeight c : ℤ) = height) ↔ c = a) ∧
    (¬(0 ≤ height ∧ height ≤ t.nHeight b) → t.getAncestorAsserted b height = some none) ∧
    t.getAncestor b height = (t.getAncestorAsserted b height).join := by
  have hforest := h.skipForest
  refine ⟨?_, ?_, t.getAncestor_eq_join b height⟩
  · rintro ⟨hzero, hle⟩
    obtain ⟨a, hrun, ha, hheight⟩ := hforest.getAncestor_spec b hzero hle
    refine ⟨a, hrun, fun c => ?_⟩
    rw [← hforest.leveled.mem_lineage_iff]
    constructor
    · rintro ⟨hc, hcheight⟩
      exact hforest.leveled.eq_of_depth_eq hc ha (by omega)
    · rintro rfl
      exact ⟨ha, hheight⟩
  · intro hout
    rw [getAncestorAsserted, if_pos (by omega)]

instance neZero_four : NeZero 4 := ⟨by decide⟩

def chainOfFour : BlockEntries (Fin 4) where
  pprev b := if b = 0 then none else some (b - 1)
  pskip _ := none
  nHeight b := b.val
  nVersion _ := 0
  nTime _ := 0

theorem getAncestor_built_chainOfFour :
    ((((chainOfFour.setSkip 0).setSkip 1).setSkip 2).setSkip 3).getAncestor 3 1 = some 1 := by
  have hload : Built chainOfFour [] := Built.load chainOfFour ⟨by decide, by decide⟩ (fun _ => rfl)
  have hbuilt := (((hload.buildSkip 0 (by decide)).buildSkip 1 (by decide)).buildSkip 2 (by decide)).buildSkip 3
    (by decide)
  obtain ⟨hin, -, hjoin⟩ := getAncestor_built hbuilt 3 1
  obtain ⟨a, hrun, hone⟩ := hin (by decide)
  have ha : 1 = a := by
    refine (hone 1).mp ⟨Relation.ReflTransGen.tail (Relation.ReflTransGen.single (b := 2) ?_) ?_, rfl⟩ <;> decide
  rw [hjoin, hrun, ← ha]
  rfl

end BlockEntries

end MutableBitcoin
