import Mathlib.Data.List.Perm.Basic
import Mathlib.Data.List.Sort

/-!
# Multimaps as sorted lists

A multimap keeps its elements in the order of their keys, and a new element comes behind those with the same key.
-/

namespace MutableBitcoin.Lib
open List

variable {α β : Type} [LinearOrder β] (key : α → β)

/-- The keys do not fall. -/
def KeySorted (l : List α) : Prop := l.Pairwise fun a b => key a ≤ key b

/-- `std::multimap::insert`. -/
def multimapInsert (a : α) : List α → List α
  | [] => [a]
  | b :: l => if key a < key b then a :: b :: l else b :: multimapInsert a l

variable {key} {a b : α} {l : List α}

lemma multimapInsert_perm (key : α → β) (a : α) (l : List α) : (multimapInsert key a l).Perm (a :: l) := by
  induction l with
  | nil => exact List.Perm.refl _
  | cons b l ih =>
    rw [multimapInsert]
    split_ifs
    · exact List.Perm.refl _
    · exact (ih.cons b).trans (List.Perm.swap a b l)

lemma mem_multimapInsert : b ∈ multimapInsert key a l ↔ b = a ∨ b ∈ l := by
  rw [(multimapInsert_perm key a l).mem_iff, mem_cons]

lemma KeySorted.insert (h : KeySorted key l) : KeySorted key (multimapInsert key a l) := by
  induction l with
  | nil => exact pairwise_singleton _ _
  | cons b l ih =>
    obtain ⟨hb, hl⟩ := pairwise_cons.mp h
    rw [multimapInsert]
    split_ifs with hlt
    · refine pairwise_cons.mpr ⟨fun c hc => ?_, h⟩
      obtain rfl | hc := mem_cons.mp hc
      · exact hlt.le
      · exact hlt.le.trans (hb c hc)
    · refine pairwise_cons.mpr ⟨fun c hc => ?_, ih hl⟩
      obtain rfl | hc := mem_multimapInsert.mp hc
      · exact not_lt.mp hlt
      · exact hb c hc

lemma KeySorted.head_le (h : KeySorted key (a :: l)) (hb : b ∈ a :: l) : key a ≤ key b := by
  obtain rfl | hb := mem_cons.mp hb
  · exact le_rfl
  · exact (pairwise_cons.mp h).1 b hb

end MutableBitcoin.Lib

/-!
## Sets as ordered lists

A set keeps its elements in their order, each of them once, and a new element goes to its place.
-/

namespace MutableBitcoin.Lib
open List

variable {α : Type} [DecidableEq α] (r : α → α → Prop) [DecidableRel r]

/-- `std::set::insert`. -/
def insertUnique (a : α) (s : List α) : List α := if a ∈ s then s else s.orderedInsert r a

variable {r} {a b : α} {s : List α}

@[simp] lemma mem_insertUnique : b ∈ insertUnique r a s ↔ b = a ∨ b ∈ s := by
  unfold insertUnique
  split_ifs with h
  · exact ⟨Or.inr, fun hb => hb.elim (fun heq => heq ▸ h) id⟩
  · exact mem_orderedInsert r

lemma nodup_insertUnique (h : s.Nodup) : (insertUnique r a s).Nodup := by
  unfold insertUnique
  split_ifs with ha
  · exact h
  · exact (perm_orderedInsert r a s).nodup_iff.mpr (nodup_cons.mpr ⟨ha, h⟩)

lemma mem_foldl_insertUnique {l : List α} : b ∈ l.foldl (fun s a => insertUnique r a s) s ↔ b ∈ l ∨ b ∈ s := by
  induction l generalizing s with
  | nil => simp
  | cons a l ih =>
    rw [foldl_cons, ih, mem_insertUnique, mem_cons]
    tauto

end MutableBitcoin.Lib

/-!
## Sorting and cutting

An unstable sort may return any sorted order of a list. What is cut off at its end does not come before what is kept.
-/

namespace MutableBitcoin.Lib
open List

variable {α : Type}

/-- A sort that promises nothing about the order of equal elements. -/
structure UnstableSort (lt : α → α → Bool) where
  sort : List α → List α
  perm : ∀ l, (sort l).Perm l
  sorted : ∀ l, (sort l).Pairwise fun a b => lt b a = false

/-- A sort for a comparison of keys in a linear order. -/
def UnstableSort.byKey {κ : Type} [LinearOrder κ] {lt : α → α → Bool} (key : α → κ)
    (h : ∀ a b, lt a b = decide (key a < key b)) : UnstableSort lt where
  sort l := l.insertionSort (fun a b => key a ≤ key b)
  perm l := l.perm_insertionSort _
  sorted l := by
    have : Std.Total (fun a b => key a ≤ key b) := ⟨fun a b => le_total (key a) (key b)⟩
    have : IsTrans α (fun a b => key a ≤ key b) := ⟨fun _ _ _ => le_trans⟩
    apply (l.pairwise_insertionSort (fun a b => key a ≤ key b)).imp
    intro a b hle
    rw [h, decide_eq_false_iff_not, not_lt]
    exact hle

def cutLast (n : ℕ) (l : List α) : List α := l.take (l.length - min n l.length)

lemma length_cutLast (n : ℕ) (l : List α) : (cutLast n l).length = l.length - n := by
  rw [cutLast, length_take]
  omega

lemma UnstableSort.cut {lt : α → α → Bool} (s : UnstableSort lt) (n : ℕ) (l : List α) :
    ∃ cut, (cut ++ cutLast n (s.sort l)).Perm l ∧ cut.length = min n l.length ∧
      ∀ p ∈ cut, ∀ q ∈ cutLast n (s.sort l), lt p q = false := by
  have hlength := (s.perm l).length_eq
  refine ⟨(s.sort l).drop ((s.sort l).length - min n (s.sort l).length), ?_, ?_, ?_⟩
  · refine perm_append_comm.trans ?_
    rw [cutLast, take_append_drop]
    exact s.perm l
  · rw [length_drop, hlength]
    omega
  · intro p hp q hq
    have hsorted := s.sorted l
    rw [← take_append_drop ((s.sort l).length - min n (s.sort l).length) (s.sort l), pairwise_append] at hsorted
    exact hsorted.2.2 q hq p hp

end MutableBitcoin.Lib
