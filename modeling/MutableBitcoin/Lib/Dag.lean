import MutableBitcoin.Lib.Worklist
import Mathlib.Algebra.BigOperators.Group.Finset.Basic

/-!
# Totals over a graph without cycles

A finite graph is given by the parents and the children of its nodes. A total over what a node reaches,
or over what reaches it, is kept up to date when a leaf is added and when nodes are taken away.
-/

namespace MutableBitcoin.Lib
open Finset

variable {α : Type*}

/-- Parents and children of a finite graph agree, and no node reaches itself. -/
structure Dag (univ : Finset α) (parents children : α → Finset α) : Prop where
  sub : ∀ {x y}, y ∈ children x → x ∈ univ ∧ y ∈ univ
  symm : ∀ {x y}, x ∈ parents y ↔ y ∈ children x
  acyclic : ∀ {x y}, y ∈ children x → ¬ Reaches children y x

open Classical in
noncomputable def below (univ : Finset α) (children : α → Finset α) (x : α) : Finset α :=
  {y ∈ univ | Reaches children x y}

open Classical in
noncomputable def above (univ : Finset α) (children : α → Finset α) (x : α) : Finset α :=
  {y ∈ univ | Reaches children y x}

lemma mem_below {univ : Finset α} {children : α → Finset α} {x y : α} :
    y ∈ below univ children x ↔ y ∈ univ ∧ Reaches children x y := by
  classical exact mem_filter

lemma mem_above {univ : Finset α} {children : α → Finset α} {x y : α} :
    y ∈ above univ children x ↔ y ∈ univ ∧ Reaches children y x := by
  classical exact mem_filter

lemma reaches_congr {next next' : α → Finset α} {c : α} (h : ∀ x, Reaches next' c x → next x = next' x) {y : α} :
    Reaches next c y ↔ Reaches next' c y := by
  constructor
  · intro hreach
    induction hreach with
    | refl => exact Relation.ReflTransGen.refl
    | @tail z w _ hstep ih =>
      rw [h z ih] at hstep
      exact Relation.ReflTransGen.tail ih hstep
  · intro hreach
    induction hreach with
    | refl => exact Relation.ReflTransGen.refl
    | @tail z w hcz hstep ih =>
      rw [← h z hcz] at hstep
      exact Relation.ReflTransGen.tail ih hstep

section Basic

variable {univ : Finset α} {parents children : α → Finset α}

lemma Dag.reaches_parents (h : Dag univ parents children) {x y : α} :
    Reaches parents y x ↔ Reaches children x y := by
  unfold Reaches
  rw [← Relation.reflTransGen_swap]
  have hrel : (fun a b => b ∈ parents a) = Function.swap (fun a b => b ∈ children a) := by
    funext a b
    exact propext h.symm
  rw [hrel]

lemma Dag.mem_of_reaches (h : Dag univ parents children) {x y : α} (hx : x ∈ univ)
    (hreach : Reaches children x y) : y ∈ univ := by
  induction hreach with
  | refl => exact hx
  | tail _ hstep _ => exact (h.sub hstep).2

lemma Dag.antisymm (h : Dag univ parents children) {x y : α} (hxy : Reaches children x y)
    (hyx : Reaches children y x) : x = y := by
  obtain heq | ⟨z, hz, hreach⟩ := Relation.ReflTransGen.cases_head hxy
  · exact heq
  · exact absurd (Relation.ReflTransGen.trans hreach hyx) (h.acyclic hz)

lemma Dag.mem_below_self (_ : Dag univ parents children) {x : α} (hx : x ∈ univ) : x ∈ below univ children x :=
  mem_below.mpr ⟨hx, Relation.ReflTransGen.refl⟩

lemma Dag.mem_above_self (_ : Dag univ parents children) {x : α} (hx : x ∈ univ) : x ∈ above univ children x :=
  mem_above.mpr ⟨hx, Relation.ReflTransGen.refl⟩

lemma Dag.exists_parent_iff (h : Dag univ parents children) {x y : α} :
    (∃ p ∈ parents x, Reaches parents p y) ↔ y ≠ x ∧ Reaches children y x := by
  constructor
  · rintro ⟨p, hp, hreach⟩
    rw [h.reaches_parents] at hreach
    rw [h.symm] at hp
    refine ⟨?_, Relation.ReflTransGen.tail hreach hp⟩
    rintro rfl
    exact h.acyclic hp hreach
  · rintro ⟨hne, hreach⟩
    obtain heq | ⟨p, hyp, hp⟩ := Relation.ReflTransGen.cases_tail hreach
    · exact absurd heq.symm hne
    · exact ⟨p, h.symm.mpr hp, h.reaches_parents.mpr hyp⟩

lemma Dag.not_reaches_of_notMem (h : Dag univ parents children) {x t : α} (ht : t ∉ univ) (hx : x ≠ t) :
    ¬ Reaches children x t := by
  intro hreach
  obtain heq | ⟨z, -, hz⟩ := Relation.ReflTransGen.cases_tail hreach
  · exact hx heq.symm
  · exact ht (h.sub hz).2

end Basic

section Without

variable [DecidableEq α] {univ S : Finset α} {parents children parents' children' : α → Finset α}

/-- The graph without the nodes of `S`. -/
structure Without (S : Finset α) (parents children parents' children' : α → Finset α) : Prop where
  parents_eq : ∀ x ∉ S, parents' x = parents x \ S
  children_eq : ∀ x ∉ S, children' x = children x \ S
  gone : ∀ x ∈ S, parents' x = ∅ ∧ children' x = ∅

lemma Without.mem_children (h : Without S parents children parents' children') {x y : α} :
    y ∈ children' x ↔ y ∈ children x ∧ x ∉ S ∧ y ∉ S := by
  by_cases hx : x ∈ S
  · rw [(h.gone x hx).2]
    simp [hx]
  · rw [h.children_eq x hx, mem_sdiff]
    simp [hx]

lemma Without.mem_parents (h : Without S parents children parents' children') {x y : α} :
    y ∈ parents' x ↔ y ∈ parents x ∧ x ∉ S ∧ y ∉ S := by
  by_cases hx : x ∈ S
  · rw [(h.gone x hx).1]
    simp [hx]
  · rw [h.parents_eq x hx, mem_sdiff]
    simp [hx]

lemma Without.reaches (h : Without S parents children parents' children') {x y : α}
    (hreach : Reaches children' x y) : Reaches children x y :=
  Relation.ReflTransGen.mono (fun _ _ hstep => (h.mem_children.mp hstep).1) _ _ hreach

lemma Dag.without (hdag : Dag univ parents children) (h : Without S parents children parents' children') :
    Dag (univ \ S) parents' children' where
  sub hy := by
    obtain ⟨hy, hxS, hyS⟩ := h.mem_children.mp hy
    exact ⟨mem_sdiff.mpr ⟨(hdag.sub hy).1, hxS⟩, mem_sdiff.mpr ⟨(hdag.sub hy).2, hyS⟩⟩
  symm := by
    intro x y
    rw [h.mem_parents, h.mem_children, hdag.symm, and_comm (a := y ∉ S)]
  acyclic hy hreach := hdag.acyclic (h.mem_children.mp hy).1 (h.reaches hreach)

/-- Paths outside of `S` stay paths. -/
def Avoidable (S : Finset α) (children children' : α → Finset α) : Prop :=
  ∀ x y, x ∉ S → y ∉ S → Reaches children x y → Reaches children' x y

lemma avoidable_of_closed (h : Without S parents children parents' children')
    (hclosed : ∀ x ∈ S, children x ⊆ S) : Avoidable S children children' := by
  intro x y hx hy hreach
  induction hreach with
  | refl => exact Relation.ReflTransGen.refl
  | @tail z w _ hstep ih =>
    have hz : z ∉ S := fun hz => hy (hclosed z hz hstep)
    exact Relation.ReflTransGen.tail (ih hz) (h.mem_children.mpr ⟨hstep, hz, hy⟩)

lemma avoidable_of_root {r : α} (hdag : Dag univ parents children)
    (h : Without {r} parents children parents' children') (hroot : parents r = ∅) :
    Avoidable {r} children children' := by
  intro x y hx hy hreach
  induction hreach with
  | refl => exact Relation.ReflTransGen.refl
  | @tail z w hxz hstep ih =>
    have hz : z ∉ ({r} : Finset α) := by
      rw [mem_singleton]
      rintro rfl
      obtain heq | ⟨p, -, hp⟩ := Relation.ReflTransGen.cases_tail hxz
      · exact hx (mem_singleton.mpr heq.symm)
      · rw [← hdag.symm, hroot] at hp
        exact absurd hp (notMem_empty p)
    exact Relation.ReflTransGen.tail (ih hz) (h.mem_children.mpr ⟨hstep, hz, hy⟩)

lemma below_without_sub (h : Without S parents children parents' children') (x : α) :
    below (univ \ S) children' x ⊆ below univ children x \ S := by
  intro y hy
  rw [mem_below, mem_sdiff] at hy
  exact mem_sdiff.mpr ⟨mem_below.mpr ⟨hy.1.1, h.reaches hy.2⟩, hy.1.2⟩

lemma above_without_sub (h : Without S parents children parents' children') (x : α) :
    above (univ \ S) children' x ⊆ above univ children x \ S := by
  intro y hy
  rw [mem_above, mem_sdiff] at hy
  exact mem_sdiff.mpr ⟨mem_above.mpr ⟨hy.1.1, h.reaches hy.2⟩, hy.1.2⟩

lemma below_without (h : Without S parents children parents' children') (havoid : Avoidable S children children')
    {x : α} (hx : x ∉ S) : below (univ \ S) children' x = below univ children x \ S := by
  apply (below_without_sub h x).antisymm
  intro y hy
  rw [mem_sdiff, mem_below] at hy
  exact mem_below.mpr ⟨mem_sdiff.mpr ⟨hy.1.1, hy.2⟩, havoid x y hx hy.2 hy.1.2⟩

lemma above_without (h : Without S parents children parents' children') (havoid : Avoidable S children children')
    {x : α} (hx : x ∉ S) : above (univ \ S) children' x = above univ children x \ S := by
  apply (above_without_sub h x).antisymm
  intro y hy
  rw [mem_sdiff, mem_above] at hy
  exact mem_above.mpr ⟨mem_sdiff.mpr ⟨hy.1.1, hy.2⟩, havoid y x hy.2 hx hy.1.2⟩

end Without

section Leaf

variable [DecidableEq α] {univ P : Finset α} {parents children parents' children' : α → Finset α} {t : α}

/-- The graph with a new node `t` below the nodes of `P`. -/
structure WithLeaf (t : α) (P : Finset α) (parents children parents' children' : α → Finset α) : Prop where
  parents_leaf : parents' t = P
  children_leaf : children' t = ∅
  parents_eq : ∀ x, x ≠ t → parents' x = parents x
  children_eq : ∀ x, x ≠ t → children' x = if x ∈ P then insert t (children x) else children x

lemma WithLeaf.mem_children (h : WithLeaf t P parents children parents' children') {x y : α} (hx : x ≠ t) :
    y ∈ children' x ↔ y ∈ children x ∨ y = t ∧ x ∈ P := by
  rw [h.children_eq x hx]
  split_ifs with hP
  · rw [mem_insert, or_comm]
    simp [hP]
  · simp [hP]

lemma WithLeaf.reaches_leaf (h : WithLeaf t P parents children parents' children') {y : α} :
    Reaches children' t y ↔ y = t := by
  constructor
  · intro hreach
    obtain heq | ⟨z, hz, -⟩ := Relation.ReflTransGen.cases_head hreach
    · exact heq.symm
    · rw [h.children_leaf] at hz
      exact absurd hz (notMem_empty z)
  · rintro rfl
    exact Relation.ReflTransGen.refl

lemma WithLeaf.reaches (h : WithLeaf t P parents children parents' children') (hdag : Dag univ parents children)
    (ht : t ∉ univ) {x y : α} (hx : x ≠ t) :
    Reaches children' x y ↔ Reaches children x y ∨ y = t ∧ ∃ p ∈ P, Reaches children x p := by
  constructor
  · intro hreach
    induction hreach with
    | refl => exact Or.inl Relation.ReflTransGen.refl
    | @tail z w _ hstep ih =>
      obtain hxz | ⟨rfl, -⟩ := ih
      · by_cases hz : z = t
        · rw [hz, h.children_leaf] at hstep
          exact absurd hstep (notMem_empty w)
        · obtain hw | ⟨rfl, hP⟩ := (h.mem_children hz).mp hstep
          · exact Or.inl (Relation.ReflTransGen.tail hxz hw)
          · exact Or.inr ⟨rfl, z, hP, hxz⟩
      · rw [h.children_leaf] at hstep
        exact absurd hstep (notMem_empty w)
  · have hmono : ∀ z, Reaches children x z → Reaches children' x z := by
      intro z hz
      refine Relation.ReflTransGen.mono ?_ _ _ hz
      intro a b hstep
      have ha : a ≠ t := fun heq => ht (heq ▸ (hdag.sub hstep).1)
      exact (h.mem_children ha).mpr (Or.inl hstep)
    rintro (hreach | ⟨rfl, p, hp, hreach⟩)
    · exact hmono y hreach
    · by_cases hpt : p = y
      · exact hpt ▸ hmono p hreach
      · exact Relation.ReflTransGen.tail (hmono p hreach) ((h.mem_children hpt).mpr (Or.inr ⟨rfl, hp⟩))

lemma Dag.withLeaf (hdag : Dag univ parents children) (h : WithLeaf t P parents children parents' children')
    (ht : t ∉ univ) (hP : P ⊆ univ) : Dag (insert t univ) parents' children' := by
  have hstep : ∀ {x y}, y ∈ children' x → x ≠ t ∧ (y ∈ children x ∨ y = t ∧ x ∈ P) := by
    intro x y hy
    have hx : x ≠ t := by
      rintro rfl
      rw [h.children_leaf] at hy
      exact absurd hy (notMem_empty y)
    exact ⟨hx, (h.mem_children hx).mp hy⟩
  refine ⟨?_, ?_, ?_⟩
  · intro x y hy
    obtain ⟨-, hy | ⟨rfl, hx⟩⟩ := hstep hy
    · exact ⟨mem_insert_of_mem (hdag.sub hy).1, mem_insert_of_mem (hdag.sub hy).2⟩
    · exact ⟨mem_insert_of_mem (hP hx), mem_insert_self _ _⟩
  · intro x y
    by_cases hx : x = t
    · rw [hx, h.children_leaf]
      by_cases hy : y = t
      · rw [hy, h.parents_leaf]
        simpa using fun hmem => ht (hP hmem)
      · rw [h.parents_eq y hy, hdag.symm]
        simpa using fun hmem => ht (hdag.sub hmem).1
    · rw [h.mem_children hx]
      by_cases hy : y = t
      · rw [hy, h.parents_leaf]
        simpa using fun hmem => absurd (hdag.sub hmem).2 ht
      · rw [h.parents_eq y hy, hdag.symm]
        simp [hy]
  · intro x y hy hreach
    obtain ⟨hx, hy | ⟨rfl, -⟩⟩ := hstep hy
    · have hyt : y ≠ t := fun heq => ht (heq ▸ (hdag.sub hy).2)
      obtain hreach | ⟨heq, -⟩ := (h.reaches hdag ht hyt).mp hreach
      · exact hdag.acyclic hy hreach
      · exact hx heq
    · exact hx (h.reaches_leaf.mp hreach)

lemma below_withLeaf (hdag : Dag univ parents children) (h : WithLeaf t P parents children parents' children')
    (ht : t ∉ univ) {x : α} (hx : x ≠ t) [Decidable (∃ p ∈ P, Reaches children x p)] :
    below (insert t univ) children' x =
      if ∃ p ∈ P, Reaches children x p then insert t (below univ children x) else below univ children x := by
  have hxt := hdag.not_reaches_of_notMem ht hx
  ext y
  rw [mem_below, mem_insert, h.reaches hdag ht hx]
  by_cases hy : y = t
  · rw [hy]
    split_ifs with hP
    · simp [hP]
    · simp [hP, hxt, mem_below]
  · split_ifs with hP
    · simp [hy, mem_below]
    · simp [hy, mem_below]

lemma above_withLeaf (hdag : Dag univ parents children) (h : WithLeaf t P parents children parents' children')
    (ht : t ∉ univ) {x : α} (hx : x ≠ t) : above (insert t univ) children' x = above univ children x := by
  ext y
  rw [mem_above, mem_above, mem_insert]
  by_cases hy : y = t
  · rw [hy, h.reaches_leaf]
    simp [hx, ht]
  · rw [h.reaches hdag ht hy]
    simp [hx, hy]

lemma below_leaf (h : WithLeaf t P parents children parents' children') : below (insert t univ) children' t = {t} := by
  ext y
  rw [mem_below, h.reaches_leaf, mem_singleton]
  refine ⟨fun hy => hy.2, ?_⟩
  rintro rfl
  exact ⟨mem_insert_self _ _, rfl⟩

lemma mem_above_leaf (hdag : Dag univ parents children) (h : WithLeaf t P parents children parents' children')
    (ht : t ∉ univ) {y : α} :
    y ∈ above (insert t univ) children' t ↔ y = t ∨ y ∈ univ ∧ ∃ p ∈ P, Reaches children y p := by
  rw [mem_above, mem_insert]
  by_cases hy : y = t
  · rw [hy, h.reaches_leaf]
    simp
  · rw [h.reaches hdag ht hy]
    have hnot := hdag.not_reaches_of_notMem ht hy
    simp [hy, hnot]

end Leaf

section Rejoin

variable {univ R : Finset α} {children children' : α → Finset α}

/-- The graph with the edges that lead out of `R`, without new paths between two nodes of `R` or between two
other nodes. -/
structure Rejoined (R : Finset α) (children children' : α → Finset α) : Prop where
  mem_iff : ∀ {x y}, y ∈ children x ↔ y ∈ children' x ∧ ¬ (x ∈ R ∧ y ∉ R)
  keeps : ∀ {x y}, (x ∈ R ↔ y ∈ R) → Reaches children' x y → Reaches children x y

lemma Rejoined.mono (h : Rejoined R children children') {x y : α} (hreach : Reaches children x y) :
    Reaches children' x y :=
  Relation.ReflTransGen.mono (fun _ _ hstep => (h.mem_iff.mp hstep).1) _ _ hreach

lemma Rejoined.reaches_of_notMem (h : Rejoined R children children') {x y : α} (hx : x ∉ R)
    (hreach : Reaches children' x y) : Reaches children x y := by
  induction hreach with
  | refl => exact Relation.ReflTransGen.refl
  | @tail z w hxz hstep ih =>
    by_cases hout : z ∈ R ∧ w ∉ R
    · exact h.keeps (iff_of_false hx hout.2) (Relation.ReflTransGen.tail hxz hstep)
    · exact Relation.ReflTransGen.tail ih (h.mem_iff.mpr ⟨hstep, hout⟩)

lemma Rejoined.mem_of_reaches (h : Rejoined R children children') {x y : α} (hx : x ∈ R)
    (hreach : Reaches children x y) : y ∈ R := by
  induction hreach with
  | refl => exact hx
  | tail _ hstep ih =>
    by_contra hout
    exact (h.mem_iff.mp hstep).2 ⟨ih, hout⟩

lemma Rejoined.closed (h : Rejoined R children children') {D : Finset α} (hD : D ⊆ R)
    (hstep : ∀ c ∈ D, ∀ r ∈ R, r ∈ children' c → r ∈ D) {c r : α} (hc : c ∈ D) (hr : r ∈ R)
    (hreach : Reaches children' c r) : r ∈ D := by
  have hpath := h.keeps (iff_of_true (hD hc) hr) hreach
  clear hr hreach
  induction hpath with
  | refl => exact hc
  | @tail z w _ hzw ih =>
    obtain ⟨hw, hout⟩ := h.mem_iff.mp hzw
    exact hstep z ih w (not_not.mp fun hwR => hout ⟨hD ih, hwR⟩) hw

lemma Rejoined.sum_below [DecidableEq α] {M : Type*} [AddCommMonoid M] (h : Rejoined R children children')
    (univ : Finset α) (g : α → M) (x : α) :
    ∑ y ∈ below univ children' x, g y = ∑ y ∈ below univ children x, g y +
      if x ∈ R then ∑ y ∈ below univ children' x \ R, g y else 0 := by
  split_ifs with hx
  · have hsplit : below univ children' x = below univ children x ∪ below univ children' x \ R := by
      ext y
      rw [mem_union, mem_sdiff, mem_below, mem_below]
      constructor
      · rintro ⟨hy, hreach⟩
        by_cases hyR : y ∈ R
        · exact Or.inl ⟨hy, h.keeps (iff_of_true hx hyR) hreach⟩
        · exact Or.inr ⟨⟨hy, hreach⟩, hyR⟩
      · rintro (⟨hy, hreach⟩ | ⟨hy, -⟩)
        · exact ⟨hy, h.mono hreach⟩
        · exact hy
    have hdisjoint : Disjoint (below univ children x) (below univ children' x \ R) := by
      rw [disjoint_left]
      intro y hy hy'
      exact (mem_sdiff.mp hy').2 (h.mem_of_reaches hx (mem_below.mp hy).2)
    conv_lhs => rw [hsplit]
    exact sum_union hdisjoint
  · have hsame : below univ children' x = below univ children x := by
      ext y
      rw [mem_below, mem_below]
      exact and_congr_right' ⟨h.reaches_of_notMem hx, h.mono⟩
    rw [hsame, add_zero]

lemma Rejoined.sum_above [DecidableEq α] {M : Type*} [AddCommMonoid M] (h : Rejoined R children children')
    (hR : R ⊆ univ) (g : α → M) {x : α} (hx : x ∈ univ) [DecidablePred fun b => x ∈ below univ children' b \ R] :
    ∑ y ∈ above univ children' x, g y = ∑ y ∈ above univ children x, g y +
      ∑ b ∈ R with x ∈ below univ children' b \ R, g b := by
  have hsplit : above univ children' x =
      above univ children x ∪ R.filter (fun b => x ∈ below univ children' b \ R) := by
    ext y
    rw [mem_union, mem_filter, mem_sdiff, mem_above, mem_above, mem_below]
    constructor
    · rintro ⟨hy, hreach⟩
      by_cases hyR : y ∈ R
      · by_cases hxR : x ∈ R
        · exact Or.inl ⟨hy, h.keeps (iff_of_true hyR hxR) hreach⟩
        · exact Or.inr ⟨hyR, ⟨hx, hreach⟩, hxR⟩
      · exact Or.inl ⟨hy, h.reaches_of_notMem hyR hreach⟩
    · rintro (⟨hy, hreach⟩ | ⟨hy, ⟨-, hreach⟩, -⟩)
      · exact ⟨hy, h.mono hreach⟩
      · exact ⟨hR hy, hreach⟩
  have hdisjoint : Disjoint (above univ children x) (R.filter (fun b => x ∈ below univ children' b \ R)) := by
    rw [disjoint_left]
    intro y hy hy'
    obtain ⟨hyR, hxR⟩ := mem_filter.mp hy'
    exact (mem_sdiff.mp hxR).2 (h.mem_of_reaches hyR (mem_above.mp hy).2)
  rw [hsplit]
  exact sum_union hdisjoint

end Rejoin

end MutableBitcoin.Lib
