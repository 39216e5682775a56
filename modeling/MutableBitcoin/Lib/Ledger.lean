import Mathlib.Algebra.BigOperators.Fin
import Mathlib.Algebra.Order.BigOperators.Group.Finset
import Mathlib.Tactic.Linarith
import Mathlib.Tactic.Ring

/-!
# Ledgers

A ledger holds a stack of items for every key. Only the top of a stack is visible; what lies under it is visible
again once the top is removed.
-/

namespace MutableBitcoin.Lib
open Finset

variable {K V : Type}

abbrev Ledger (K V : Type) := K → List V

namespace Ledger

section Operations

variable [DecidableEq K]

def pop (σ : Ledger K V) (k : K) : Ledger K V := Function.update σ k (σ k).tail

def push (σ : Ledger K V) (k : K) (v : V) : Ledger K V := Function.update σ k (v :: σ k)

def put (σ : Ledger K V) (k : K) (v : V) : Ledger K V := Function.update σ k [v]

def popAll (σ : Ledger K V) (ks : List K) : Ledger K V := ks.foldl pop σ

end Operations

section Values

variable (val : V → ℤ)

def top (σ : Ledger K V) (k : K) : ℤ := ((σ k).head?.map val).getD 0

def worth (σ : Ledger K V) (k : K) : ℤ := ((σ k).map val).sum

def counted (σ : Ledger K V) (ks : List K) : ℤ := (ks.map (top val σ)).sum

def removed [DecidableEq K] (σ : Ledger K V) : List K → ℤ
  | [] => 0
  | k :: ks => top val σ k + removed (pop σ k) ks

def visible [Fintype K] (σ : Ledger K V) : ℤ := ∑ k, top val σ k

def held [Fintype K] (σ : Ledger K V) : ℤ := ∑ k, worth val σ k

def hidden [Fintype K] (σ : Ledger K V) : ℤ := ∑ k, (((σ k).tail).map val).sum

end Values

section Lemmas

variable [DecidableEq K] {val : V → ℤ} (σ : Ledger K V)

omit [DecidableEq K] in
lemma worth_eq (k : K) : worth val σ k = top val σ k + (((σ k).tail).map val).sum := by
  unfold worth top
  cases σ k <;> simp

lemma top_pop_of_ne {k k' : K} (h : k' ≠ k) : top val (pop σ k) k' = top val σ k' := by
  simp [top, pop, h]

lemma counted_pop_of_notMem {k : K} {ks : List K} (h : k ∉ ks) :
    counted val (pop σ k) ks = counted val σ ks := by
  unfold counted
  congr 1
  apply List.map_congr_left
  intro k' hk'
  exact top_pop_of_ne σ (fun he => h (he ▸ hk'))

lemma removed_eq_counted {ks : List K} (h : ks.Nodup) : removed val σ ks = counted val σ ks := by
  induction ks generalizing σ with
  | nil => rfl
  | cons k ks ih =>
    rw [List.nodup_cons] at h
    rw [removed, ih _ h.2, counted_pop_of_notMem σ h.1]
    simp [counted]

variable [Fintype K]

omit [DecidableEq K] in
lemma held_eq : held val σ = visible val σ + hidden val σ := by
  unfold held visible hidden
  rw [← sum_add_distrib]
  exact sum_congr rfl (fun k _ => worth_eq σ k)

lemma held_update (k : K) (l : List V) :
    held val (Function.update σ k l) = held val σ - worth val σ k + (l.map val).sum := by
  unfold held
  have hrest : ∑ k' ∈ Finset.univ.erase k, worth val (Function.update σ k l) k' =
      ∑ k' ∈ Finset.univ.erase k, worth val σ k' := by
    apply sum_congr rfl
    intro k' hk'
    unfold worth
    rw [Function.update_of_ne (ne_of_mem_erase hk')]
  have h₁ := add_sum_erase Finset.univ (worth val (Function.update σ k l)) (mem_univ k)
  have h₂ := add_sum_erase Finset.univ (worth val σ) (mem_univ k)
  have hk : worth val (Function.update σ k l) k = (l.map val).sum := by simp [worth]
  rw [← h₁, ← h₂, hrest, hk]
  ring

lemma held_pop (k : K) : held val (pop σ k) = held val σ - top val σ k := by
  rw [pop, held_update, worth_eq]
  ring

lemma held_push (k : K) (v : V) : held val (push σ k v) = held val σ + val v := by
  rw [push, held_update, worth]
  simp

lemma held_put (k : K) (v : V) : held val (put σ k v) = held val σ + val v - worth val σ k := by
  rw [put, held_update]
  simp
  ring

lemma held_popAll (ks : List K) : held val (popAll σ ks) = held val σ - removed val σ ks := by
  induction ks generalizing σ with
  | nil => simp [popAll, removed]
  | cons k ks ih =>
    have h := ih (pop σ k)
    rw [held_pop] at h
    rw [removed]
    refine h.trans ?_
    ring

omit [DecidableEq K] in
lemma hidden_nonneg (h : ∀ k, ∀ v ∈ σ k, 0 ≤ val v) : 0 ≤ hidden val σ := by
  apply sum_nonneg
  intro k _
  apply List.sum_nonneg
  intro x hx
  obtain ⟨v, hv, rfl⟩ := List.mem_map.mp hx
  exact h k v (List.mem_of_mem_tail hv)

end Lemmas

end Ledger

end MutableBitcoin.Lib
