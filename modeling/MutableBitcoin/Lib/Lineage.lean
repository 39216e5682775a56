import Mathlib.Data.List.Chain
import Mathlib.Data.List.DropRight
import Mathlib.Data.List.Infix
import Mathlib.Order.Monotone.Basic

/-!
# Lineages in a forest

Every node of a forest has a parent or is a root, and a depth that counts the parents above it. The lineage of a
node is the list of the node, its parent and so on up to a root.
-/

namespace MutableBitcoin.Lib
open List

variable {α : Type*} {parent : α → Option α} {depth : α → ℕ}

/-- A node and its ancestors, `n` of them at most. -/
def lineageFrom (parent : α → Option α) : ℕ → α → List α
  | 0, b => [b]
  | n + 1, b => b :: ((parent b).map (lineageFrom parent n)).getD []

def lineage (parent : α → Option α) (depth : α → ℕ) (b : α) : List α :=
  lineageFrom parent (depth b) b

/-- Roots have depth 0, and a child is one deeper than its parent. -/
structure Leveled (parent : α → Option α) (depth : α → ℕ) : Prop where
  root : ∀ b, parent b = none → depth b = 0
  step : ∀ b p, parent b = some p → depth b = depth p + 1

namespace Leveled

section Basic

variable (h : Leveled parent depth) {a b c p : α}

include h

lemma lineage_root (hb : parent b = none) : lineage parent depth b = [b] := by
  unfold lineage
  rw [h.root b hb]
  rfl

lemma lineage_step (hb : parent b = some p) :
    lineage parent depth b = b :: lineage parent depth p := by
  unfold lineage
  rw [h.step b p hb, lineageFrom, hb]
  rfl

/-- Induction from the roots on. -/
theorem induction {P : α → Prop} (hroot : ∀ b, parent b = none → P b)
    (hstep : ∀ b p, parent b = some p → P p → P b) (b : α) : P b := by
  induction hn : depth b generalizing b with
  | zero =>
    cases hb : parent b with
    | none => exact hroot b hb
    | some p =>
      have := h.step b p hb
      omega
  | succ n ih =>
    cases hb : parent b with
    | none => exact hroot b hb
    | some p =>
      have := h.step b p hb
      exact hstep b p hb (ih p (by omega))

lemma self_mem (b : α) : b ∈ lineage parent depth b := by
  cases hb : parent b with
  | none => rw [h.lineage_root hb]; exact mem_singleton_self b
  | some p => rw [h.lineage_step hb]; exact mem_cons_self

lemma mem_root (hb : parent b = none) : a ∈ lineage parent depth b ↔ a = b := by
  rw [h.lineage_root hb, mem_singleton]

lemma mem_step (hb : parent b = some p) :
    a ∈ lineage parent depth b ↔ a = b ∨ a ∈ lineage parent depth p := by
  rw [h.lineage_step hb, mem_cons]

lemma depth_le (ha : a ∈ lineage parent depth b) : depth a ≤ depth b := by
  induction b using h.induction with
  | hroot b hb => rw [(h.mem_root hb).mp ha]
  | hstep b p hb ih =>
    have := h.step b p hb
    cases (h.mem_step hb).mp ha with
    | inl heq => rw [heq]
    | inr hmem =>
      have := ih hmem
      omega

lemma mem_lineage_iff : a ∈ lineage parent depth b ↔ Relation.ReflTransGen (fun c p => parent c = some p) b a := by
  induction b using h.induction with
  | hroot b hb =>
    rw [h.mem_root hb, Relation.ReflTransGen.cases_head_iff]
    constructor
    · exact fun heq => Or.inl heq.symm
    · rintro (heq | ⟨p, hp, -⟩)
      · exact heq.symm
      · rw [hb] at hp
        cases hp
  | hstep b p hb ih =>
    rw [h.mem_step hb, ih, Relation.ReflTransGen.cases_head_iff (a := b)]
    constructor
    · rintro (heq | hmem)
      · exact Or.inl heq.symm
      · exact Or.inr ⟨p, hb, hmem⟩
    · rintro (heq | ⟨q, hq, hmem⟩)
      · exact Or.inl heq.symm
      · rw [hb] at hq
        obtain rfl := Option.some.inj hq
        exact Or.inr hmem

lemma trans (ha : a ∈ lineage parent depth b) (hb : b ∈ lineage parent depth c) :
    a ∈ lineage parent depth c := by
  induction c using h.induction with
  | hroot c hc => rwa [(h.mem_root hc).mp hb] at ha
  | hstep c p hc ih =>
    cases (h.mem_step hc).mp hb with
    | inl heq => rwa [heq] at ha
    | inr hmem => exact (h.mem_step hc).mpr (Or.inr (ih hmem))

lemma parent_mem (hb : parent b = some p) : p ∈ lineage parent depth b :=
  (h.mem_step hb).mpr (Or.inr (h.self_mem p))

lemma total (ha : a ∈ lineage parent depth c) (hb : b ∈ lineage parent depth c) :
    a ∈ lineage parent depth b ∨ b ∈ lineage parent depth a := by
  induction c using h.induction with
  | hroot c hc =>
    rw [(h.mem_root hc).mp ha, (h.mem_root hc).mp hb]
    exact Or.inl (h.self_mem c)
  | hstep c p hc ih =>
    cases (h.mem_step hc).mp ha with
    | inl heq => exact Or.inr (heq ▸ hb)
    | inr hap =>
      cases (h.mem_step hc).mp hb with
      | inl heq => exact Or.inl (heq ▸ ha)
      | inr hbp => exact ih hap hbp

lemma eq_of_depth_le (ha : a ∈ lineage parent depth b) (hle : depth b ≤ depth a) : a = b := by
  cases hb : parent b with
  | none => exact (h.mem_root hb).mp ha
  | some p =>
    cases (h.mem_step hb).mp ha with
    | inl heq => exact heq
    | inr hmem =>
      have := h.depth_le hmem
      have := h.step b p hb
      omega

lemma eq_of_depth_eq (ha : a ∈ lineage parent depth c) (hb : b ∈ lineage parent depth c)
    (heq : depth a = depth b) : a = b := by
  cases h.total ha hb with
  | inl hab => exact h.eq_of_depth_le hab heq.ge
  | inr hba => exact (h.eq_of_depth_le hba heq.le).symm

lemma length_lineage (b : α) : (lineage parent depth b).length = depth b + 1 := by
  induction b using h.induction with
  | hroot b hb => rw [h.lineage_root hb, h.root b hb]; rfl
  | hstep b p hb ih => rw [h.lineage_step hb, length_cons, ih, h.step b p hb]

lemma getElem?_reverse (b : α) {n : ℕ} :
    (lineage parent depth b).reverse[n]? = some a ↔ a ∈ lineage parent depth b ∧ depth a = n := by
  induction b using h.induction generalizing n a with
  | hroot b hb =>
    rw [h.lineage_root hb, reverse_singleton, getElem?_singleton, mem_singleton]
    constructor
    · intro hn
      split_ifs at hn with hzero
      obtain rfl := Option.some.inj hn
      exact ⟨rfl, (h.root b hb).trans hzero.symm⟩
    · rintro ⟨rfl, hn⟩
      rw [if_pos (hn.symm.trans (h.root a hb))]
  | hstep b p hb ih =>
    have hlen : (lineage parent depth p).reverse.length = depth p + 1 := by
      rw [length_reverse, h.length_lineage]
    have hdepth := h.step b p hb
    rw [h.lineage_step hb, reverse_cons]
    by_cases hn : n < depth p + 1
    · rw [getElem?_append_left (by omega), ih, mem_cons]
      constructor
      · exact fun hmem => ⟨Or.inr hmem.1, hmem.2⟩
      · rintro ⟨rfl | hmem, hn'⟩
        · omega
        · exact ⟨hmem, hn'⟩
    · rw [getElem?_append_right (by omega), hlen, getElem?_singleton, mem_cons]
      constructor
      · intro hget
        split_ifs at hget with hzero
        obtain rfl := Option.some.inj hget
        exact ⟨Or.inl rfl, by omega⟩
      · rintro ⟨rfl | hmem, hn'⟩
        · rw [if_pos (by omega)]
        · have := h.depth_le hmem
          omega

lemma isChain_lineage (b : α) : (lineage parent depth b).IsChain (fun a p => parent a = some p) := by
  induction b using h.induction with
  | hroot b hb => rw [h.lineage_root hb]; exact isChain_singleton b
  | hstep b p hb ih =>
    rw [h.lineage_step hb]
    cases hp : parent p with
    | none =>
      rw [h.lineage_root hp]
      exact isChain_pair.mpr hb
    | some q =>
      rw [h.lineage_step hp] at ih ⊢
      exact isChain_cons_cons.mpr ⟨hb, ih⟩

lemma eq_lineage_of_append {l : List α} (hb : ∃ below, lineage parent depth b = below ++ a :: l) :
    a :: l = lineage parent depth a := by
  obtain ⟨below, hbelow⟩ := hb
  induction below generalizing b with
  | nil =>
    have hhead : b = a := by
      cases hp : parent b with
      | none => rw [h.lineage_root hp] at hbelow; exact (List.cons.inj hbelow).1
      | some p => rw [h.lineage_step hp] at hbelow; exact (List.cons.inj hbelow).1
    rw [← hhead, hbelow, hhead]
    rfl
  | cons c below ih =>
    cases hp : parent b with
    | none =>
      rw [h.lineage_root hp] at hbelow
      have hlen := congrArg List.length hbelow
      rw [length_singleton, cons_append, length_cons, length_append, length_cons] at hlen
      omega
    | some p =>
      rw [h.lineage_step hp] at hbelow
      exact ih (List.cons.inj hbelow).2

lemma le_of_mem {β : Type*} [Preorder β] {f : α → β} (hf : ∀ b p, parent b = some p → f p < f b)
    (ha : a ∈ lineage parent depth b) : f a ≤ f b := by
  induction b using h.induction with
  | hroot b hb => rw [(h.mem_root hb).mp ha]
  | hstep b p hb ih =>
    cases (h.mem_step hb).mp ha with
    | inl heq => rw [heq]
    | inr hmem => exact (ih hmem).trans (hf b p hb).le

lemma lt_of_mem {β : Type*} [Preorder β] {f : α → β} (hf : ∀ b p, parent b = some p → f p < f b)
    (ha : a ∈ lineage parent depth b) (hne : a ≠ b) : f a < f b := by
  cases hb : parent b with
  | none => exact absurd ((h.mem_root hb).mp ha) hne
  | some p =>
    cases (h.mem_step hb).mp ha with
    | inl heq => exact absurd heq hne
    | inr hmem => exact (h.le_of_mem hf hmem).trans_lt (hf b p hb)

end Basic

section Cut

variable (h : Leveled parent depth) {a b : α}

include h

lemma eq_append_of_mem (ha : a ∈ lineage parent depth b) :
    ∃ below, lineage parent depth b = below ++ lineage parent depth a ∧ a ∉ below ∧
      ∀ c ∈ below, a ∈ lineage parent depth c := by
  induction b using h.induction with
  | hroot b hb =>
    obtain rfl := (h.mem_root hb).mp ha
    exact ⟨[], rfl, not_mem_nil, fun c hc => absurd hc not_mem_nil⟩
  | hstep b p hb ih =>
    by_cases heq : a = b
    · subst heq
      exact ⟨[], rfl, not_mem_nil, fun c hc => absurd hc not_mem_nil⟩
    · have hmem := ((h.mem_step hb).mp ha).resolve_left heq
      obtain ⟨below, hbelow, hnot, hall⟩ := ih hmem
      refine ⟨b :: below, ?_, ?_, ?_⟩
      · rw [h.lineage_step hb, hbelow]
        rfl
      · rw [mem_cons, not_or]
        exact ⟨heq, hnot⟩
      · rw [forall_mem_cons]
        exact ⟨ha, hall⟩

lemma find?_takeWhile {P : α → Bool} (b : α)
    (hroot : ∃ a ∈ lineage parent depth b, P a = true) :
    ∃ f, (lineage parent depth b).find? P = some f ∧ P f = true ∧ f ∈ lineage parent depth b ∧
      lineage parent depth b = (lineage parent depth b).takeWhile (fun a => !P a) ++ lineage parent depth f := by
  induction b using h.induction with
  | hroot b hb =>
    obtain ⟨a, ha, hPa⟩ := hroot
    obtain rfl := (h.mem_root hb).mp ha
    refine ⟨a, ?_, hPa, h.self_mem a, ?_⟩
    · rw [h.lineage_root hb, find?_cons_of_pos hPa]
    · rw [h.lineage_root hb, takeWhile_cons_of_neg (by rw [hPa]; decide)]
      rfl
  | hstep b p hb ih =>
    cases hPb : P b with
    | true =>
      refine ⟨b, ?_, hPb, h.self_mem b, ?_⟩
      · rw [h.lineage_step hb, find?_cons_of_pos hPb]
      · rw [h.lineage_step hb, takeWhile_cons_of_neg (by rw [hPb]; decide)]
        rfl
    | false =>
      obtain ⟨a, ha, hPa⟩ := hroot
      have hap : a ∈ lineage parent depth p := by
        apply ((h.mem_step hb).mp ha).resolve_left
        rintro rfl
        rw [hPa] at hPb
        cases hPb
      obtain ⟨f, hfind, hPf, hmem, hcut⟩ := ih ⟨a, hap, hPa⟩
      refine ⟨f, ?_, hPf, (h.mem_step hb).mpr (Or.inr hmem), ?_⟩
      · rw [h.lineage_step hb, find?_cons_of_neg (by rw [hPb]; decide), hfind]
      · rw [h.lineage_step hb, takeWhile_cons_of_pos (by rw [hPb]; decide), cons_append, ← hcut]

end Cut

end Leveled

end MutableBitcoin.Lib
