import Mathlib.Algebra.Order.BigOperators.Group.List
import Mathlib.Tactic.Linarith

/-!
# Sums of selected values

A list of flags selects from a list of values. Setting one flag changes the sum by the value at its place.
-/

namespace MutableBitcoin.Lib
open List

def select {α : Type} : List α → List Bool → List α
  | a :: as, flag :: flags => if flag then a :: select as flags else select as flags
  | _, _ => []

def selectedSum (values : List ℤ) (flags : List Bool) : ℤ := (select values flags).sum

section Select

variable {α β : Type} {l : List α} {flags : List Bool}

lemma select_cons (a : α) (flag : Bool) :
    select (a :: l) (flag :: flags) = if flag then a :: select l flags else select l flags := rfl

lemma select_map (f : α → β) : select (l.map f) flags = (select l flags).map f := by
  induction l generalizing flags with
  | nil => rfl
  | cons a l ih =>
    cases flags with
    | nil => rfl
    | cons flag flags =>
      rw [map_cons, select_cons, select_cons, ih]
      split_ifs with h
      · rfl
      · rfl

lemma select_sublist : (select l flags).Sublist l := by
  induction l generalizing flags with
  | nil => exact List.Sublist.refl _
  | cons a l ih =>
    cases flags with
    | nil => exact nil_sublist _
    | cons flag flags =>
      rw [select_cons]
      split_ifs with h
      · exact ih.cons_cons a
      · exact ih.cons a

lemma select_replicate_true : select l (List.replicate l.length true) = l := by
  induction l with
  | nil => rfl
  | cons a l ih =>
    rw [length_cons, replicate_succ, select_cons, if_pos rfl, ih]

lemma select_replicate_false (n : ℕ) : select l (List.replicate n false) = [] := by
  induction l generalizing n with
  | nil => rfl
  | cons a l ih =>
    cases n with
    | zero => rfl
    | succ n =>
      rw [replicate_succ, select_cons, if_neg Bool.false_ne_true]
      exact ih n

end Select

section Sums

variable {values : List ℤ} {flags : List Bool}

lemma selectedSum_set_true {i : ℕ} {v : ℤ} (hv : values[i]? = some v) (hflag : flags[i]? = some false) :
    selectedSum values (flags.set i true) = selectedSum values flags + v := by
  induction values generalizing flags i with
  | nil => simp at hv
  | cons w values ih =>
    cases flags with
    | nil => simp at hflag
    | cons flag flags =>
      cases i with
      | zero =>
        obtain rfl : w = v := Option.some.inj hv
        obtain rfl : flag = false := Option.some.inj hflag
        rw [set_cons_zero, selectedSum, selectedSum, select_cons, select_cons, if_pos rfl, if_neg Bool.false_ne_true]
        rw [sum_cons]
        omega
      | succ i =>
        have hrest := ih (i := i) hv hflag
        unfold selectedSum at hrest ⊢
        rw [set_cons_succ, select_cons, select_cons]
        split_ifs with h
        · rw [sum_cons, sum_cons, hrest]
          omega
        · exact hrest

lemma selectedSum_le (flags : List Bool) (hvalues : ∀ v ∈ values, 0 ≤ v) :
    selectedSum values flags ≤ values.sum := by
  induction values generalizing flags with
  | nil => exact le_rfl
  | cons w values ih =>
    rw [forall_mem_cons] at hvalues
    have hsum : 0 ≤ values.sum := sum_nonneg hvalues.2
    cases flags with
    | nil =>
      show (0 : ℤ) ≤ _
      rw [sum_cons]
      omega
    | cons flag flags =>
      have hrest := ih flags hvalues.2
      unfold selectedSum at hrest ⊢
      rw [select_cons]
      split_ifs with h
      · rw [sum_cons, sum_cons]
        omega
      · rw [sum_cons]
        omega

lemma selectedSum_nonneg (flags : List Bool) (hvalues : ∀ v ∈ values, 0 ≤ v) : 0 ≤ selectedSum values flags :=
  sum_nonneg fun v hv => hvalues v (select_sublist.subset hv)

end Sums

end MutableBitcoin.Lib
