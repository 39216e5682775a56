import MutableBitcoin.LockPoints
import MutableBitcoin.NextWork
import MutableBitcoin.VersionBits

/-!
# Header checks against the chain

`ContextualCheckBlockHeader` of `validation.cpp`. Its check of the time keeps the median time past from falling
along a chain, on which the shortcut of the version bits and the time locks rely.
-/

namespace MutableBitcoin
open Lib

variable {Ptr : Type}

/-- On a chain whose blocks pass the check of the time the median time past never falls. A branch that has not
reached the start time of a deployment has no other state than the first, and a time lock that is met stays met. -/
theorem getMedianTimePast_monotone (t : IndexedTree Ptr) (tip : Ptr)
    (htimes : ∀ b ∈ t.lineage tip, ∀ p, t.pprev b = some p → t.getMedianTimePast p < (t.nTime b).toNat) :
    (∀ b ∈ t.lineage tip, ∀ p, t.pprev b = some p → t.getMedianTimePast p ≤ t.getMedianTimePast b) ∧
      (∀ a ∈ t.lineage tip, ∀ b ∈ t.lineage tip, a ∈ t.lineage b → t.getMedianTimePast a ≤ t.getMedianTimePast b) ∧
      (∀ c : ThresholdConditionChecker Ptr, c.beginTime ≤ c.endTime → ∀ b ∈ t.lineage tip,
        t.getMedianTimePast b < c.beginTime → c.bip9State t (t.lineage b) = .DEFINED) ∧
      ∀ (sha256 : Bytes → Uint256) (m : MinedTree sha256 Ptr), m.toIndexedTree = t → ∀ b ∈ t.lineage tip,
        ∀ lockPair, m.evaluateSequenceLocks b lockPair = true → m.evaluateSequenceLocks tip lockPair = true := by
  have hchain : ∀ b ∈ t.lineage tip, ∀ a ∈ t.lineage b, t.getMedianTimePast a ≤ t.getMedianTimePast b :=
    fun b hb a ha => t.getMedianTimePast_le_of_rise (fun c hc => htimes c (t.leveled.trans hc hb)) ha
  refine ⟨fun b hb p hp => t.getMedianTimePast_le_step hp (htimes b hb p hp), fun a _ b hb ha => hchain b hb a ha,
    ?_, ?_⟩
  · intro c horder b hb hearly
    exact ThresholdConditionChecker.bip9State_of_early horder fun a ha => (hchain b hb a ha).trans_lt hearly
  · rintro sha256 m rfl b hb lockPair hmet
    have htime := hchain tip (m.leveled.self_mem tip) b hb
    have hheight := m.leveled.depth_le hb
    rw [MinedTree.evaluateSequenceLocks, Bool.not_eq_true', Bool.or_eq_false_iff, decide_eq_false_iff_not,
      decide_eq_false_iff_not] at hmet ⊢
    exact ⟨by omega, by omega⟩

lemma leveled_backwardTimes : Leveled (fun p : Fin 4 => if p = 0 then none else some (p - 1)) (fun p => (p : ℕ)) :=
  ⟨by decide, by decide⟩

def backwardTimes : IndexedTree (Fin 4) where
  pprev p := if p = 0 then none else some (p - 1)
  pskip p := if p = 0 then none else if p = 3 then some 1 else some 0
  nHeight p := p
  nVersion _ := 1
  nTime p := [10, 20, 25, 21].getD p 0
  leveled := leveled_backwardTimes
  skips := by decide +kernel

theorem getMedianTimePast_monotone_backwardTimes :
    (∀ b ∈ backwardTimes.lineage 3, ∀ p, backwardTimes.pprev b = some p →
        backwardTimes.getMedianTimePast p ≤ backwardTimes.getMedianTimePast b) ∧
      (∀ a ∈ backwardTimes.lineage 3, ∀ b ∈ backwardTimes.lineage 3, a ∈ backwardTimes.lineage b →
        backwardTimes.getMedianTimePast a ≤ backwardTimes.getMedianTimePast b) ∧
      (∀ c : ThresholdConditionChecker (Fin 4), c.beginTime ≤ c.endTime → ∀ b ∈ backwardTimes.lineage 3,
        backwardTimes.getMedianTimePast b < c.beginTime → c.bip9State backwardTimes (backwardTimes.lineage b) = .DEFINED) ∧
      ∀ (sha256 : Bytes → Uint256) (m : MinedTree sha256 (Fin 4)), m.toIndexedTree = backwardTimes →
        ∀ b ∈ backwardTimes.lineage 3, ∀ lockPair, m.evaluateSequenceLocks b lockPair = true →
          m.evaluateSequenceLocks 3 lockPair = true :=
  getMedianTimePast_monotone backwardTimes 3 (by decide +kernel)

end MutableBitcoin
