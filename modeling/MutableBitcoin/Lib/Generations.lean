import Mathlib.Data.List.DropRight
import Mathlib.Data.Set.Basic

/-!
# Marks of three generations

Positions carry the number of one of the generations 1, 2 and 3, which follow each other in turn, or 0 for no
mark. What was marked in the current generation or in one of the two before it is still marked.
-/

namespace MutableBitcoin.Lib
open List

/-- A mark for each position, and the current generation. -/
structure Generations (P : Type*) where
  mark : P → ℕ
  generation : ℕ

namespace Generations
variable {P K : Type*}

def next (g : ℕ) : ℕ := if g = 3 then 1 else g + 1

def advance (t : Generations P) : Generations P where
  mark p := if t.mark p = next t.generation then 0 else t.mark p
  generation := next t.generation

open Classical in
noncomputable def touch (t : Generations P) (ps : Set P) : Generations P where
  mark p := if p ∈ ps then t.generation else t.mark p
  generation := t.generation

/-- Keys in the order in which their positions were touched, split by generation. Two generations that are
over hold at least `least` keys each. -/
structure Remembers (t : Generations P) (least : ℕ) (positions : K → Set P)
    (earlier old previous current : List K) : Prop where
  generation_pos : 1 ≤ t.generation
  generation_le : t.generation ≤ 3
  current_mark : ∀ k ∈ current, ∀ p ∈ positions k, t.mark p = t.generation
  previous_mark : ∀ k ∈ previous, ∀ p ∈ positions k,
    t.mark p = t.generation ∨ t.mark p = next (next t.generation)
  old_mark : ∀ k ∈ old, ∀ p ∈ positions k, t.mark p ≠ 0
  previous_full : earlier ++ old ≠ [] → least ≤ previous.length
  old_full : earlier ≠ [] → least ≤ old.length

variable {t : Generations P} {least : ℕ} {positions : K → Set P} {earlier old previous current : List K}

theorem remembers_nil (hpos : 1 ≤ t.generation) (hle : t.generation ≤ 3) :
    t.Remembers least positions [] [] [] ([] : List K) where
  generation_pos := hpos
  generation_le := hle
  current_mark := by simp
  previous_mark := by simp
  old_mark := by simp
  previous_full := by simp
  old_full := by simp

theorem Remembers.advance (h : t.Remembers least positions earlier old previous current)
    (hfull : earlier ++ old ++ previous ≠ [] → least ≤ current.length) :
    t.advance.Remembers least positions (earlier ++ old) previous current [] := by
  have hpos := h.generation_pos
  have hle := h.generation_le
  refine ⟨?_, ?_, by simp, ?_, ?_, hfull, h.previous_full⟩
  · simp only [Generations.advance, next]
    split_ifs <;> omega
  · simp only [Generations.advance, next]
    split_ifs <;> omega
  · intro k hk p hp
    have hmark := h.current_mark k hk p hp
    right
    simp only [Generations.advance, next, hmark]
    split_ifs <;> omega
  · -- The number that is reused is neither that of the keys of the old current generation nor that before.
    intro k hk p hp
    have hmark := h.previous_mark k hk p hp
    simp only [Generations.advance, next] at hmark ⊢
    split_ifs at hmark ⊢ <;> omega

theorem Remembers.touch (h : t.Remembers least positions earlier old previous current) (k : K) :
    (t.touch (positions k)).Remembers least positions earlier old previous (current ++ [k]) := by
  have hpos := h.generation_pos
  refine ⟨hpos, h.generation_le, ?_, ?_, ?_, h.previous_full, h.old_full⟩
  · intro k' hk' p hp
    simp only [Generations.touch]
    split_ifs with hmem
    · rfl
    · obtain hin | rfl := by simpa using hk'
      · exact h.current_mark k' hin p hp
      · exact absurd hp hmem
  · intro k' hk' p hp
    simp only [Generations.touch]
    split_ifs with hmem
    · exact .inl rfl
    · exact h.previous_mark k' hk' p hp
  · intro k' hk' p hp
    simp only [Generations.touch]
    split_ifs with hmem
    · omega
    · exact h.old_mark k' hk' p hp

theorem Remembers.mark_ne_zero (h : t.Remembers least positions earlier old previous current) {k : K}
    (hk : k ∈ old ++ previous ++ current) : ∀ p ∈ positions k, t.mark p ≠ 0 := by
  have hpos := h.generation_pos
  intro p hp
  obtain hk | hk | hk := by simpa only [mem_append, or_assoc] using hk
  · exact h.old_mark k hk p hp
  · have hmark := h.previous_mark k hk p hp
    simp only [next] at hmark
    split_ifs at hmark <;> omega
  · have hmark := h.current_mark k hk p hp
    omega

/-- As many keys as two generations hold are still marked, at the least. -/
theorem Remembers.recent (h : t.Remembers least positions earlier old previous current) {n : ℕ}
    (hn : n ≤ 2 * least) {k : K} (hk : k ∈ (earlier ++ old ++ previous ++ current).rtake n) :
    ∀ p ∈ positions k, t.mark p ≠ 0 := by
  refine h.mark_ne_zero ?_
  by_cases hearlier : earlier = []
  · subst hearlier
    exact mem_of_mem_drop (by simpa [List.rtake] using hk)
  · have hold := h.old_full hearlier
    have hprevious := h.previous_full (by simp [hearlier])
    have hlength : n ≤ (old ++ (previous ++ current)).length := by
      simp only [length_append]
      omega
    rw [List.rtake, append_assoc, append_assoc, length_append, drop_append,
      drop_eq_nil_of_le (by omega), nil_append, ← append_assoc] at hk
    exact mem_of_mem_drop hk

end Generations
end MutableBitcoin.Lib
