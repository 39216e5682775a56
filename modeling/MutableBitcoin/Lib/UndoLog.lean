import Mathlib.Data.List.Nodup

/-!
# Logs of edits

An edit gives a key of a map a new value and remembers the value that it had. A run of edits is
undone by the inverse edits in reverse order, and edits of different keys may be made in any order.
-/

namespace MutableBitcoin.Lib
open Function List

/-- A key with its value before and after. -/
structure Edit (K V : Type) where
  key : K
  before : V
  after : V

namespace Edit

variable {K V : Type} [DecidableEq K] {e f : Edit K V} {m m₁ m₂ : K → V}

def inverse (e : Edit K V) : Edit K V := ⟨e.key, e.after, e.before⟩

/-- The edit leads from the first map to the second. -/
structure Step (e : Edit K V) (m m' : K → V) : Prop where
  before : m e.key = e.before
  after : m' = Function.update m e.key e.after

lemma Step.inverse (h : e.Step m m₁) : e.inverse.Step m₁ m where
  before := by
    rw [h.after]
    exact update_self ..
  after := by
    show m = Function.update m₁ e.key e.before
    rw [h.after, update_idem, ← h.before, update_eq_self]

lemma Step.of_ne (h : e.Step m m₁) {k : K} (hne : k ≠ e.key) : m₁ k = m k := by
  rw [h.after, update_of_ne hne]

lemma Step.comm (h₁ : e.Step m m₁) (h₂ : f.Step m₁ m₂) (hne : e.key ≠ f.key) :
    ∃ m₁', f.Step m m₁' ∧ e.Step m₁' m₂ := by
  refine ⟨Function.update m f.key f.after, ⟨?_, rfl⟩, ?_, ?_⟩
  · rw [← h₁.of_ne hne.symm]
    exact h₂.before
  · rw [update_of_ne hne]
    exact h₁.before
  · rw [h₂.after, h₁.after, update_comm hne]

end Edit

/-- A run of edits. -/
inductive Edits {K V : Type} [DecidableEq K] : List (Edit K V) → (K → V) → (K → V) → Prop where
  | nil (m : K → V) : Edits [] m m
  | cons {e : Edit K V} {es : List (Edit K V)} {m m₁ m₂ : K → V} (h : e.Step m m₁)
    (hs : Edits es m₁ m₂) : Edits (e :: es) m m₂

namespace Edits

variable {K V : Type} [DecidableEq K] {es es₁ es₂ : List (Edit K V)} {m m₁ m₂ m' : K → V}

lemma append (h₁ : Edits es₁ m m₁) (h₂ : Edits es₂ m₁ m₂) : Edits (es₁ ++ es₂) m m₂ := by
  induction h₁ with
  | nil => exact h₂
  | cons h _ ih => exact .cons h (ih h₂)

/-- A run is undone by the inverse edits in reverse order. -/
theorem inverse (h : Edits es m m') : Edits (es.reverse.map Edit.inverse) m' m := by
  induction h with
  | nil m => exact .nil m
  | cons h _ ih =>
    rw [reverse_cons, map_append]
    exact ih.append (.cons h.inverse (.nil _))

/-- Edits of pairwise different keys may be made in any order. -/
theorem perm (h : Edits es₁ m m') (hkeys : (es₁.map Edit.key).Nodup) (hperm : es₁.Perm es₂) :
    Edits es₂ m m' := by
  induction hperm generalizing m with
  | nil => exact h
  | cons e _ ih =>
    rw [map_cons, nodup_cons] at hkeys
    cases h with
    | cons he hs => exact .cons he (ih hs hkeys.2)
  | swap e f es =>
    rw [map_cons, map_cons, nodup_cons, mem_cons, not_or] at hkeys
    cases h with
    | cons hf hs =>
      cases hs with
      | cons he hs =>
        obtain ⟨m₁, he', hf'⟩ := hf.comm he hkeys.1.1
        exact .cons he' (.cons hf' hs)
  | trans h₁ _ ih₁ ih₂ => exact ih₂ (ih₁ h hkeys) ((h₁.map Edit.key).nodup hkeys)

lemma values {P : V → Prop} (h : Edits es m m') (hm : ∀ k, P (m k)) (hafter : ∀ e ∈ es, P e.after) :
    (∀ e ∈ es, P e.before) ∧ ∀ k, P (m' k) := by
  induction h with
  | nil m => exact ⟨by simp, hm⟩
  | @cons e _ m m₁ _ h _ ih =>
    rw [forall_mem_cons] at hafter
    have hm₁ : ∀ k, P (m₁ k) := by
      intro k
      rw [h.after]
      by_cases hk : k = e.key
      · rw [hk, update_self]
        exact hafter.1
      · rw [update_of_ne hk]
        exact hm k
    obtain ⟨hbefore, hm'⟩ := ih hm₁ hafter.2
    refine ⟨forall_mem_cons.mpr ⟨?_, hbefore⟩, hm'⟩
    rw [← h.before]
    exact hm e.key

section Create

variable {v : V}

lemma notMem_keys_of_ne (h : Edits es m m') (hbefore : ∀ e ∈ es, e.before = v) {k : K} (hk : m k ≠ v) :
    k ∉ es.map Edit.key := by
  induction h with
  | nil m => exact not_mem_nil
  | @cons e _ _ _ _ h _ ih =>
    rw [forall_mem_cons] at hbefore
    rw [map_cons, mem_cons, not_or]
    have hne : k ≠ e.key := by
      rintro rfl
      exact hk (h.before.trans hbefore.1)
    refine ⟨hne, ih hbefore.2 ?_⟩
    rw [h.of_ne hne]
    exact hk

lemma nodup_keys (h : Edits es m m') (hbefore : ∀ e ∈ es, e.before = v) (hafter : ∀ e ∈ es, e.after ≠ v) :
    (es.map Edit.key).Nodup := by
  induction h with
  | nil m => exact nodup_nil
  | cons h hs ih =>
    rw [forall_mem_cons] at hbefore hafter
    rw [map_cons, nodup_cons]
    refine ⟨hs.notMem_keys_of_ne hbefore.2 ?_, ih hbefore.2 hafter.2⟩
    rw [h.after, update_self]
    exact hafter.1

lemma inverse_of_create (h : Edits es m m') (hbefore : ∀ e ∈ es, e.before = v)
    (hafter : ∀ e ∈ es, e.after ≠ v) : Edits (es.map Edit.inverse) m' m := by
  have hkeys : ((es.reverse.map Edit.inverse).map Edit.key).Nodup := by
    rw [map_map]
    exact (es.reverse_perm.map Edit.key).nodup_iff.mpr (h.nodup_keys hbefore hafter)
  exact h.inverse.perm hkeys (es.reverse_perm.map Edit.inverse)

end Create

end Edits

end MutableBitcoin.Lib
