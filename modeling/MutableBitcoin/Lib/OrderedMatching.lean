import Mathlib.Data.List.NodupEquivFin

/-!
# Matchings that keep the order

`SublistForall₂ R as bs` says that every element of `as` has a partner in `bs`, in the same order.
It is enough to look for the partners greedily, and it is the same as a strictly increasing
assignment of positions.
-/

namespace MutableBitcoin.Lib
open List

variable {α β : Type} {R : α → β → Prop} {a : α} {b : β} {as : List α} {bs : List β}

lemma sublistForall₂_of_cons (h : SublistForall₂ R (a :: as) bs) : SublistForall₂ R as bs := by
  induction bs with
  | nil => nomatch h
  | cons b bs ih =>
    cases h with
    | cons _ htail => exact .cons_right htail
    | cons_right htail => exact .cons_right (ih htail)

lemma sublistForall₂_cons_of_rel (h : R a b) :
    SublistForall₂ R (a :: as) (b :: bs) ↔ SublistForall₂ R as bs := by
  constructor
  · intro hmatch
    cases hmatch with
    | cons _ htail => exact htail
    | cons_right htail => exact sublistForall₂_of_cons htail
  · exact .cons h

lemma sublistForall₂_cons_of_not_rel (h : ¬R a b) :
    SublistForall₂ R (a :: as) (b :: bs) ↔ SublistForall₂ R (a :: as) bs := by
  constructor
  · intro hmatch
    cases hmatch with
    | cons hab _ => exact absurd hab h
    | cons_right htail => exact htail
  · exact .cons_right

lemma length_le_of_sublistForall₂ (h : SublistForall₂ R as bs) : as.length ≤ bs.length := by
  obtain ⟨l, hall, hsub⟩ := sublistForall₂_iff.mp h
  exact hall.length_eq.trans_le hsub.length_le

lemma sublistForall₂_reverse (h : SublistForall₂ R as bs) :
    SublistForall₂ R as.reverse bs.reverse := by
  obtain ⟨l, hall, hsub⟩ := sublistForall₂_iff.mp h
  exact sublistForall₂_iff.mpr ⟨l.reverse, rel_reverse hall, hsub.reverse⟩

lemma sublistForall₂_reverse_iff :
    SublistForall₂ R as.reverse bs.reverse ↔ SublistForall₂ R as bs :=
  ⟨fun h => by simpa using sublistForall₂_reverse h, sublistForall₂_reverse⟩

lemma sublistForall₂_iff_exists_strictMono : SublistForall₂ R as bs ↔
    ∃ f : Fin as.length → Fin bs.length, StrictMono f ∧ ∀ i, R (as.get i) (bs.get (f i)) := by
  rw [sublistForall₂_iff]
  constructor
  · rintro ⟨l, hall, hsub⟩
    obtain ⟨f, hf⟩ := sublist_iff_exists_fin_orderEmbedding_get_eq.mp hsub
    obtain ⟨hlen, hget⟩ := forall₂_iff_get.mp hall
    refine ⟨fun i => f (i.cast hlen), fun i j hij => f.strictMono hij, fun i => ?_⟩
    rw [← hf]
    exact hget i i.isLt (hlen ▸ i.isLt)
  · rintro ⟨f, hmono, hrel⟩
    refine ⟨ofFn fun i => bs.get (f i), forall₂_iff_get.mpr ⟨by simp, fun i hi hi' => ?_⟩, ?_⟩
    · simpa using hrel ⟨i, hi⟩
    · refine sublist_iff_exists_fin_orderEmbedding_get_eq.mpr
        ⟨OrderEmbedding.ofStrictMono (fun i => f (i.cast (by simp))) fun i j hij => hmono hij, ?_⟩
      intro i
      simp only [get_ofFn]
      rfl

end MutableBitcoin.Lib
