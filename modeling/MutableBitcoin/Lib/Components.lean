import Mathlib.Data.Set.Lattice
import Mathlib.Tactic.Common

/-!
# Connected components of a family of sets

Two elements are linked if a chain of sets leads from one to the other, each sharing an element with the next. The
components are the sets of linked elements.
-/

namespace MutableBitcoin.Lib
open Set

variable {α : Type} {family family' components : Set (Set α)} {g : Set α} {a b c : α}

/-- Some set has both elements. -/
def ShareSet (family : Set (Set α)) (a b : α) : Prop := ∃ s ∈ family, a ∈ s ∧ b ∈ s

/-- A chain of sets leads from one to the other. -/
def LinkedBy (family : Set (Set α)) : α → α → Prop := Relation.TransGen (ShareSet family)

lemma ShareSet.symm (h : ShareSet family a b) : ShareSet family b a := by
  obtain ⟨s, hs, ha, hb⟩ := h
  exact ⟨s, hs, hb, ha⟩

lemma ShareSet.mono (hsub : family ⊆ family') (h : ShareSet family a b) : ShareSet family' a b := by
  obtain ⟨s, hs, hab⟩ := h
  exact ⟨s, hsub hs, hab⟩

lemma ShareSet.linkedBy (h : ShareSet family a b) : LinkedBy family a b := .single h

lemma LinkedBy.trans (hab : LinkedBy family a b) (hbc : LinkedBy family b c) : LinkedBy family a c :=
  Relation.TransGen.trans hab hbc

lemma LinkedBy.symm (h : LinkedBy family a b) : LinkedBy family b a := by
  induction h with
  | single h => exact h.symm.linkedBy
  | tail _ h ih => exact h.symm.linkedBy.trans ih

lemma LinkedBy.mono (hsub : family ⊆ family') (h : LinkedBy family a b) : LinkedBy family' a b := by
  induction h with
  | single h => exact (h.mono hsub).linkedBy
  | tail _ h ih => exact ih.trans (h.mono hsub).linkedBy

lemma LinkedBy.mem_right (h : LinkedBy family a b) : ∃ s ∈ family, b ∈ s := by
  cases h with
  | single h =>
    obtain ⟨s, hs, -, hb⟩ := h
    exact ⟨s, hs, hb⟩
  | tail _ h =>
    obtain ⟨s, hs, -, hb⟩ := h
    exact ⟨s, hs, hb⟩

/-- A partition into the classes of linked elements. -/
structure IsComponents (family components : Set (Set α)) : Prop where
  nonempty : ∀ s ∈ components, s.Nonempty
  disjoint : ∀ s ∈ components, ∀ t ∈ components, ∀ a, a ∈ s → a ∈ t → s = t
  linked_iff : ∀ a b, ShareSet components a b ↔ LinkedBy family a b

/-- The components after one more set. -/
def mergeComponents (g : Set α) (components : Set (Set α)) : Set (Set α) :=
  insert (g ∪ {x | ∃ s ∈ components, x ∈ s ∧ (s ∩ g).Nonempty}) {s ∈ components | ¬(s ∩ g).Nonempty}

lemma isComponents_empty : IsComponents (∅ : Set (Set α)) ∅ where
  nonempty _ h := absurd h (notMem_empty _)
  disjoint _ h := absurd h (notMem_empty _)
  linked_iff a b := by
    constructor
    · rintro ⟨s, hs, -⟩
      exact absurd hs (notMem_empty s)
    · intro h
      obtain ⟨s, hs, -⟩ := h.mem_right
      exact absurd hs (notMem_empty s)

namespace IsComponents

lemma mem_iff (h : IsComponents family components) (a : α) :
    (∃ s ∈ components, a ∈ s) ↔ ∃ g ∈ family, a ∈ g := by
  constructor
  · rintro ⟨s, hs, ha⟩
    exact ((h.linked_iff a a).mp ⟨s, hs, ha, ha⟩).mem_right
  · rintro ⟨g, hg, ha⟩
    have hlinked : LinkedBy family a a := ShareSet.linkedBy ⟨g, hg, ha, ha⟩
    obtain ⟨s, hs, hmem, -⟩ := (h.linked_iff a a).mpr hlinked
    exact ⟨s, hs, hmem⟩

lemma shareSet_trans (hdisjoint : ∀ s ∈ components, ∀ t ∈ components, ∀ a, a ∈ s → a ∈ t → s = t)
    (hab : ShareSet components a b) (hbc : ShareSet components b c) : ShareSet components a c := by
  obtain ⟨s, hs, ha, hb⟩ := hab
  obtain ⟨t, ht, hb', hc⟩ := hbc
  obtain rfl := hdisjoint s hs t ht b hb hb'
  exact ⟨s, hs, ha, hc⟩

lemma merge (h : IsComponents family components) (hg : g.Nonempty) :
    IsComponents (insert g family) (mergeComponents g components) := by
  have hdisjoint : ∀ s ∈ mergeComponents g components, ∀ t ∈ mergeComponents g components,
      ∀ a, a ∈ s → a ∈ t → s = t := by
    have hmerged : ∀ t ∈ {s ∈ components | ¬(s ∩ g).Nonempty},
        ∀ a ∈ g ∪ {x | ∃ s ∈ components, x ∈ s ∧ (s ∩ g).Nonempty}, a ∉ t := by
      rintro t ⟨ht, hfar⟩ a (ha | ⟨s, hs, ha, hnear⟩) hat
      · exact hfar ⟨a, hat, ha⟩
      · rw [h.disjoint s hs t ht a ha hat] at hnear
        exact hfar hnear
    rintro s (rfl | hs) t (rfl | ht) a has hat
    · rfl
    · exact absurd hat (hmerged t ht a has)
    · exact absurd has (hmerged s hs a hat)
    · exact h.disjoint s hs.1 t ht.1 a has hat
  refine ⟨?_, hdisjoint, fun a b => ⟨?_, ?_⟩⟩
  · rintro s (rfl | ⟨hs, -⟩)
    · exact hg.mono subset_union_left
    · exact h.nonempty s hs
  · -- Every element of the merged set is linked to one of the set that was added.
    have hclose : ∀ x ∈ g ∪ {x | ∃ s ∈ components, x ∈ s ∧ (s ∩ g).Nonempty},
        ∃ y ∈ g, LinkedBy (insert g family) x y := by
      rintro x (hx | ⟨s, hs, hx, y, hys, hyg⟩)
      · exact ⟨x, hx, ShareSet.linkedBy ⟨g, mem_insert g family, hx, hx⟩⟩
      · exact ⟨y, hyg, ((h.linked_iff x y).mp ⟨s, hs, hx, hys⟩).mono (subset_insert g family)⟩
    rintro ⟨s, rfl | ⟨hs, -⟩, ha, hb⟩
    · obtain ⟨y, hy, hay⟩ := hclose a ha
      obtain ⟨z, hz, hbz⟩ := hclose b hb
      have hyz : LinkedBy (insert g family) y z := ShareSet.linkedBy ⟨g, mem_insert g family, hy, hz⟩
      exact (hay.trans hyz).trans hbz.symm
    · exact ((h.linked_iff a b).mp ⟨s, hs, ha, hb⟩).mono (subset_insert g family)
  · -- A link is inside one component, and so is a chain of links.
    have hstep : ∀ x y, ShareSet (insert g family) x y → ShareSet (mergeComponents g components) x y := by
      rintro x y ⟨s, rfl | hs, hx, hy⟩
      · exact ⟨_, mem_insert _ _, Or.inl hx, Or.inl hy⟩
      · obtain ⟨t, ht, hxt, hyt⟩ := (h.linked_iff x y).mpr (ShareSet.linkedBy ⟨s, hs, hx, hy⟩)
        by_cases hnear : (t ∩ g).Nonempty
        · exact ⟨_, mem_insert _ _, Or.inr ⟨t, ht, hxt, hnear⟩, Or.inr ⟨t, ht, hyt, hnear⟩⟩
        · exact ⟨t, mem_insert_of_mem _ ⟨ht, hnear⟩, hxt, hyt⟩
    intro hlinked
    induction hlinked with
    | single hlink => exact hstep _ _ hlink
    | tail _ hlink ih => exact shareSet_trans hdisjoint ih (hstep _ _ hlink)

end IsComponents

end MutableBitcoin.Lib
