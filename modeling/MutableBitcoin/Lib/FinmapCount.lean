import Mathlib.Data.Finmap
import Mathlib.Data.Fintype.Card

/-!
# Counting the values of a finite map

How many keys have a value with a property, and how inserting and erasing a key changes this number.
-/

namespace MutableBitcoin.Lib
open Finmap

variable {K V : Type} [DecidableEq K] {m : Finmap (fun _ : K => V)} {k k' : K} {v : V} {p : V → Bool}

def countValues (p : V → Bool) (m : Finmap (fun _ : K => V)) : ℕ :=
  (m.keys.filter (fun k => (m.lookup k).any p = true)).card

lemma mem_filter_iff : k ∈ m.keys.filter (fun k => (m.lookup k).any p = true) ↔
    ∃ v, m.lookup k = some v ∧ p v = true := by
  rw [Finset.mem_filter, mem_keys, Option.any_eq_true]
  constructor
  · rintro ⟨-, hv⟩
    exact hv
  · rintro ⟨v, hv, hp⟩
    exact ⟨mem_of_lookup_eq_some hv, v, hv, hp⟩

@[simp] lemma countValues_empty : countValues p (∅ : Finmap (fun _ : K => V)) = 0 := by
  unfold countValues
  rw [keys_empty]
  rfl

lemma countValues_erase (h : m.lookup k = some v) :
    countValues p (m.erase k) + (p v).toNat = countValues p m := by
  have herase : (m.erase k).keys.filter (fun k' => ((m.erase k).lookup k').any p = true) =
      (m.keys.filter (fun k' => (m.lookup k').any p = true)).erase k := by
    ext k'
    rw [mem_filter_iff, Finset.mem_erase, mem_filter_iff]
    by_cases hk : k' = k
    · rw [hk, lookup_erase]
      simp
    · rw [lookup_erase_ne hk]
      simp [hk]
  unfold countValues
  rw [herase]
  cases hp : p v with
  | true => exact Finset.card_erase_add_one (mem_filter_iff.mpr ⟨v, h, hp⟩)
  | false =>
    rw [Finset.erase_eq_of_notMem]
    · rfl
    · rw [mem_filter_iff]
      rintro ⟨w, hw, hpw⟩
      obtain rfl := Option.some.inj (h.symm.trans hw)
      rw [hp] at hpw
      cases hpw

lemma erase_insert_self : (m.insert k v).erase k = m.erase k := by
  apply ext_lookup
  intro k'
  by_cases hk : k' = k
  · rw [hk, lookup_erase, lookup_erase]
  · rw [lookup_erase_ne hk, lookup_erase_ne hk, lookup_insert_of_ne _ hk]

lemma erase_eq_self (h : m.lookup k = none) : m.erase k = m := by
  apply ext_lookup
  intro k'
  by_cases hk : k' = k
  · rw [hk, lookup_erase, h]
  · rw [lookup_erase_ne hk]

lemma countValues_insert_new (h : m.lookup k = none) :
    countValues p (m.insert k v) = countValues p m + (p v).toNat := by
  rw [← countValues_erase (lookup_insert m), erase_insert_self, erase_eq_self h]

lemma countValues_insert (h : m.lookup k = some v) (v' : V) :
    countValues p (m.insert k v') + (p v).toNat = countValues p m + (p v').toNat := by
  rw [← countValues_erase (lookup_insert m), erase_insert_self, ← countValues_erase h]
  omega

end MutableBitcoin.Lib

/-!
## Counting the slots of a table

How many slots of a table hold a value, and how writing one slot changes this number.
-/

namespace MutableBitcoin.Lib
open Finmap

variable {S V : Type} [Fintype S] [DecidableEq S] [DecidableEq V]

end MutableBitcoin.Lib
