import Mathlib.Data.Option.Basic

/-!
# Write-back caches

A slot of a cache lies over a value of the layer below. It holds a value of its own, which may be that nothing is
there.
-/

namespace MutableBitcoin.Lib

/-- A value, or none, with the two flags. -/
structure Mark (V : Type) where
  value : Option V
  dirty : Bool
  fresh : Bool

namespace Mark

variable {V : Type}

/-- A slot that is not dirty agrees with the value below, and a fresh one covers none. -/
structure Coherent (m : Mark V) (below : Option V) : Prop where
  clean : m.dirty = false → m.value = below
  fresh : m.fresh = true → below = none

end Mark

section Slot

variable {V : Type}

def shown (slot : Option (Mark V)) (below : Option V) : Option V :=
  match slot with
  | none => below
  | some m => m.value

/-- A slot, if there is one, is coherent with the value below. -/
def Fits (slot : Option (Mark V)) (below : Option V) : Prop := ∀ m, slot = some m → m.Coherent below

variable {slot : Option (Mark V)} {below : Option V}

@[simp] lemma shown_none : shown none below = below := rfl

@[simp] lemma shown_some (m : Mark V) : shown (some m) below = m.value := rfl

lemma fits_none : Fits (none : Option (Mark V)) below := by
  intro m h
  cases h

lemma fits_some {m : Mark V} : Fits (some m) below ↔ m.Coherent below := by
  constructor
  · intro h
    exact h m rfl
  · rintro h _ ⟨⟩
    exact h

lemma shown_of_clean (h : Fits slot below) (hclean : ∀ m, slot = some m → m.dirty = false) :
    shown slot below = below := by
  cases slot with
  | none => rfl
  | some m => exact (fits_some.mp h).clean (hclean m rfl)

lemma coherent_read {fresh : Bool} (h : fresh = true → below = none) :
    (⟨below, false, fresh⟩ : Mark V).Coherent below := ⟨fun _ => rfl, h⟩

lemma coherent_dirty {v : Option V} {fresh : Bool} (h : fresh = true → below = none) :
    (⟨v, true, fresh⟩ : Mark V).Coherent below where
  clean := by rintro ⟨⟩
  fresh := h

lemma coherent_write (h : Fits slot below) {v : Option V} {fresh : Bool}
    (hfresh : fresh = true → (∃ m, slot = some m ∧ m.fresh = true) ∨
      shown slot below = none ∧ ∀ m, slot = some m → m.dirty = false) :
    (⟨v, true, fresh⟩ : Mark V).Coherent below := by
  apply coherent_dirty
  intro hset
  obtain ⟨m, hm, hmfresh⟩ | ⟨hnone, hclean⟩ := hfresh hset
  · exact (h m hm).fresh hmfresh
  · rw [← shown_of_clean h hclean]
    exact hnone

end Slot

section WriteBack

variable {V : Type} {below : Option V}

/-- A dirty slot is written into the slot below it. A fresh slot over a value means that the flag was
misapplied, which is reported by `none`. The fresh flag is passed on only to a new slot. -/
def writeBack (child : Mark V) (parent : Option (Mark V)) : Option (Option (Mark V)) :=
  if !child.dirty then some parent
  else match parent with
    | none =>
      if child.fresh && child.value.isNone then some none
      else some (some ⟨child.value, true, child.fresh⟩)
    | some p =>
      if child.fresh && p.value.isSome then none
      else if p.fresh && child.value.isNone then some none
      else some (some ⟨child.value, true, p.fresh⟩)

variable {child p : Mark V} {parent : Option (Mark V)}

lemma writeBack_clean (h : child.dirty = false) : writeBack child parent = some parent := by
  simp [writeBack, h]

lemma writeBack_skip (hdirty : child.dirty = true) (h : (child.fresh && child.value.isNone) = true) :
    writeBack child none = some none := by
  simp only [writeBack, hdirty, h, Bool.not_true, Bool.false_eq_true, if_false, if_true]

lemma writeBack_new (hdirty : child.dirty = true) (h : (child.fresh && child.value.isNone) = false) :
    writeBack child none = some (some ⟨child.value, true, child.fresh⟩) := by
  simp only [writeBack, hdirty, h, Bool.not_true, Bool.false_eq_true, if_false]

lemma writeBack_misapplied (hdirty : child.dirty = true) (h : (child.fresh && p.value.isSome) = true) :
    writeBack child (some p) = none := by
  simp only [writeBack, hdirty, h, Bool.not_true, Bool.false_eq_true, if_false, if_true]

lemma writeBack_erase (hdirty : child.dirty = true) (happlied : (child.fresh && p.value.isSome) = false)
    (h : (p.fresh && child.value.isNone) = true) : writeBack child (some p) = some none := by
  simp only [writeBack, hdirty, happlied, h, Bool.not_true, Bool.false_eq_true, if_false, if_true]

lemma writeBack_modify (hdirty : child.dirty = true) (happlied : (child.fresh && p.value.isSome) = false)
    (h : (p.fresh && child.value.isNone) = false) :
    writeBack child (some p) = some (some ⟨child.value, true, p.fresh⟩) := by
  simp only [writeBack, hdirty, happlied, h, Bool.not_true, Bool.false_eq_true, if_false]

/-- Writing back a coherent slot succeeds, and the parent then shows what the child showed. -/
theorem writeBack_of_coherent (hparent : Fits parent below)
    (hchild : child.Coherent (shown parent below)) :
    ∃ parent', writeBack child parent = some parent' ∧ Fits parent' below ∧
      shown parent' below = child.value := by
  cases hdirty : child.dirty with
  | false => exact ⟨parent, writeBack_clean hdirty, hparent, (hchild.clean hdirty).symm⟩
  | true =>
    cases parent with
    | none =>
      cases hskip : child.fresh && child.value.isNone with
      | true =>
        refine ⟨none, writeBack_skip hdirty hskip, fits_none, ?_⟩
        rw [Bool.and_eq_true, Option.isNone_iff_eq_none] at hskip
        rw [hskip.2]
        exact hchild.fresh hskip.1
      | false =>
        exact ⟨_, writeBack_new hdirty hskip, fits_some.mpr (coherent_dirty hchild.fresh), rfl⟩
    | some p =>
      have hp := fits_some.mp hparent
      have happlied : (child.fresh && p.value.isSome) = false := by
        cases hfresh : child.fresh with
        | false => rfl
        | true =>
          have hnone : p.value = none := hchild.fresh hfresh
          rw [hnone]
          rfl
      cases herase : p.fresh && child.value.isNone with
      | true =>
        refine ⟨none, writeBack_erase hdirty happlied herase, fits_none, ?_⟩
        rw [Bool.and_eq_true, Option.isNone_iff_eq_none] at herase
        rw [herase.2]
        exact hp.fresh herase.1
      | false =>
        exact ⟨_, writeBack_modify hdirty happlied herase, fits_some.mpr (coherent_dirty hp.fresh), rfl⟩

end WriteBack

end MutableBitcoin.Lib
