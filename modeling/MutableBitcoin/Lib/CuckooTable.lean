import Mathlib.Order.BooleanAlgebra.Set

/-!
# Tables in which a placed element may displace another

A table has an element in each slot, the default one where it is free. Each other element has slots of its own.
-/

namespace MutableBitcoin.Lib.CuckooTable
open Function
variable {S E : Type*} [Inhabited E] {slots : E → Set S} {t : S → E} {x : E} {s : S}

/-- The elements in the table. -/
def stored (t : S → E) : Set E := {y | y ≠ default ∧ ∃ s, t s = y}

variable (slots) in
/-- Each element lies in one slot, and the slot is one of its own. -/
structure Placed (t : S → E) : Prop where
  own_slot : ∀ s, t s ≠ default → s ∈ slots (t s)
  one_slot : ∀ s s', t s ≠ default → t s = t s' → s = s'

variable (slots) in
/-- An element that is not in the table. -/
structure InHand (t : S → E) (x : E) : Prop extends Placed slots t where
  ne_default : x ≠ default
  not_stored : ∀ s, t s ≠ x

lemma mem_stored {y : E} : y ∈ stored t ↔ y ≠ default ∧ ∃ s, t s = y := Iff.rfl

variable [DecidableEq S]

lemma stored_update (hx : x ≠ default) (hfresh : ∀ s, t s ≠ x)
    (hone : ∀ s s', t s ≠ default → t s = t s' → s = s') :
    stored (Function.update t s x) = insert x (stored t \ {t s}) := by
  ext y
  simp only [mem_stored, Set.mem_insert_iff, Set.mem_sdiff, Set.mem_singleton_iff]
  constructor
  · rintro ⟨hy, s', rfl⟩
    by_cases hs : s' = s
    · subst hs
      exact .inl (update_self _ _ _)
    · rw [update_of_ne hs] at hy ⊢
      exact .inr ⟨⟨hy, s', rfl⟩, fun heq => hs (hone s' s hy heq)⟩
  · rintro (rfl | ⟨⟨hy, s', rfl⟩, hne⟩)
    · exact ⟨hx, s, update_self _ _ _⟩
    · have hs : s' ≠ s := fun heq => hne (by rw [heq])
      exact ⟨hy, s', update_of_ne hs _ _⟩

lemma InHand.stored_put (h : InHand slots t x) (s : S) :
    stored (Function.update t s x) = insert x (stored t \ {t s}) :=
  stored_update h.ne_default h.not_stored h.one_slot

lemma InHand.put (h : InHand slots t x) (hs : s ∈ slots x) : Placed slots (Function.update t s x) where
  own_slot s' hne := by
    by_cases heq : s' = s
    · subst heq
      rwa [update_self]
    · rw [update_of_ne heq] at hne ⊢
      exact h.own_slot s' hne
  one_slot s₁ s₂ hne heq := by
    by_cases h₁ : s₁ = s <;> by_cases h₂ : s₂ = s
    · rw [h₁, h₂]
    · rw [h₁, update_self, update_of_ne h₂] at heq
      exact absurd heq.symm (h.not_stored s₂)
    · rw [h₂, update_self, update_of_ne h₁] at heq
      exact absurd heq (h.not_stored s₁)
    · rw [update_of_ne h₁] at hne heq
      rw [update_of_ne h₂] at heq
      exact h.one_slot s₁ s₂ hne heq

lemma InHand.swap (h : InHand slots t x) (hs : s ∈ slots x) (hne : t s ≠ default) :
    InHand slots (Function.update t s x) (t s) where
  toPlaced := h.put hs
  ne_default := hne
  not_stored s' := by
    by_cases heq : s' = s
    · rw [heq, update_self]
      exact (h.not_stored s).symm
    · rw [update_of_ne heq]
      exact fun hsame => heq (h.one_slot s s' hne hsame.symm).symm

lemma InHand.stored_swap (h : InHand slots t x) (hne : t s ≠ default) :
    insert (t s) (stored (Function.update t s x)) = insert x (stored t) := by
  have hmem : t s ∈ stored t := ⟨hne, s, rfl⟩
  rw [h.stored_put, Set.insert_comm, Set.insert_sdiff_singleton, Set.insert_eq_of_mem hmem]

end MutableBitcoin.Lib.CuckooTable
