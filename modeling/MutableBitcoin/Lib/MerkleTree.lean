import Mathlib.Data.Nat.Log
import Mathlib.Tactic.Linarith
import Mathlib.Tactic.Positivity
import Mathlib.Tactic.Ring

/-!
# Binary hash trees that repeat the last node of an odd level

The leaves are the values of a function below a number `n`. A node is full if all leaves below it exist; then it
does not depend on `n`.
-/

namespace MutableBitcoin.Lib
open List Nat

section Width

def treeWidth (n : ℕ) : ℕ → ℕ
  | 0 => n
  | i + 1 => (treeWidth n i + 1) / 2

def treeHeight (n : ℕ) : ℕ := Nat.clog 2 n

lemma lt_treeWidth_iff {n i j : ℕ} : j < treeWidth n i ↔ j * 2 ^ i < n := by
  induction i generalizing j with
  | zero => simp [treeWidth]
  | succ i ih =>
    have hhalf : j < (treeWidth n i + 1) / 2 ↔ 2 * j < treeWidth n i := by omega
    rw [treeWidth, hhalf, ih]
    ring_nf

lemma treeWidth_eq_iff {n i k : ℕ} (hk : 0 < k) :
    treeWidth n i = k ↔ (k - 1) * 2 ^ i < n ∧ n ≤ k * 2 ^ i := by
  rw [← lt_treeWidth_iff, ← not_lt, ← lt_treeWidth_iff]
  omega

lemma treeWidth_pos {n : ℕ} (hn : 0 < n) (i : ℕ) : 0 < treeWidth n i := by
  rw [lt_treeWidth_iff, zero_mul]
  exact hn

lemma treeWidth_of_treeHeight_le {n i : ℕ} (hn : 0 < n) (hi : treeHeight n ≤ i) : treeWidth n i = 1 := by
  rw [treeWidth_eq_iff one_pos]
  refine ⟨by simpa using hn, ?_⟩
  rw [one_mul]
  exact (Nat.le_pow_clog one_lt_two n).trans (Nat.pow_le_pow_right two_pos hi)

lemma treeWidth_treeHeight {n : ℕ} (hn : 0 < n) : treeWidth n (treeHeight n) = 1 :=
  treeWidth_of_treeHeight_le hn le_rfl

lemma one_lt_treeWidth {n i : ℕ} (hi : i < treeHeight n) : 1 < treeWidth n i := by
  rw [lt_treeWidth_iff, one_mul]
  exact pow_lt_of_lt_clog hi

end Width

section Nodes

variable {α : Type*} (pairHash : α → α → α) (leaf : ℕ → α)

def fullNode : ℕ → ℕ → α
  | 0, j => leaf j
  | i + 1, j => pairHash (fullNode i (2 * j)) (fullNode i (2 * j + 1))

/-- The node of the tree of the first `n` leaves. -/
def treeNode (n : ℕ) : ℕ → ℕ → α
  | 0, j => leaf j
  | i + 1, j => pairHash (treeNode n i (2 * j))
      (if 2 * j + 1 < treeWidth n i then treeNode n i (2 * j + 1) else treeNode n i (2 * j))

def treeRoot (n : ℕ) : α := treeNode pairHash leaf n (treeHeight n) 0

def treePair (n i j : ℕ) : α × α :=
  (treeNode pairHash leaf n i (2 * j),
    if 2 * j + 1 < treeWidth n i then treeNode pairHash leaf n i (2 * j + 1)
    else treeNode pairHash leaf n i (2 * j))

/-- The pairs that are hashed in the tree. -/
def hashedPairs (n : ℕ) : Set (α × α) :=
  {p | ∃ i j, i < treeHeight n ∧ j < treeWidth n (i + 1) ∧ p = treePair pairHash leaf n i j}

/-- Two equal siblings that are full. -/
def EqualSiblings (n : ℕ) : Prop :=
  ∃ i j, (2 * j + 2) * 2 ^ i ≤ n ∧
    fullNode pairHash leaf i (2 * j) = fullNode pairHash leaf i (2 * j + 1)

variable {pairHash leaf}

lemma treeNode_eq_fullNode {n i j : ℕ} (h : (j + 1) * 2 ^ i ≤ n) :
    treeNode pairHash leaf n i j = fullNode pairHash leaf i j := by
  induction i generalizing j with
  | zero => rfl
  | succ i ih =>
    have hright : (2 * j + 1 + 1) * 2 ^ i ≤ n := by
      rw [pow_succ] at h
      linarith
    have hpos : 0 < 2 ^ i := by positivity
    have hleft : (2 * j + 1) * 2 ^ i ≤ n := by linarith
    have hreal : 2 * j + 1 < treeWidth n i := by
      rw [lt_treeWidth_iff]
      linarith
    rw [treeNode, fullNode, if_pos hreal, ih hleft, ih hright]

lemma treeNode_succ (n i j : ℕ) :
    treeNode pairHash leaf n (i + 1) j = Function.uncurry pairHash (treePair pairHash leaf n i j) := rfl

end Nodes

section Siblings

variable {α : Type*} {pairHash : α → α → α} {leaf : ℕ → α} {n : ℕ}

lemma equalSiblings_of_notFull
    (hinj : Set.InjOn (Function.uncurry pairHash) (hashedPairs pairHash leaf n)) {i j k : ℕ}
    (hi : i ≤ treeHeight n) (hfull : (j + 1) * 2 ^ i ≤ n) (hk : k < treeWidth n i)
    (hnotFull : n < (k + 1) * 2 ^ i)
    (heq : treeNode pairHash leaf n i j = treeNode pairHash leaf n i k) :
    EqualSiblings pairHash leaf n := by
  induction i generalizing j k with
  | zero =>
    rw [treeWidth] at hk
    omega
  | succ i ih =>
    rw [pow_succ] at hfull hnotFull
    have hpos : 0 < 2 ^ i := by positivity
    have hj : j < treeWidth n (i + 1) := by
      rw [lt_treeWidth_iff, pow_succ]
      linarith
    have hreal : 2 * j + 1 < treeWidth n i := by
      rw [lt_treeWidth_iff]
      linarith
    have hpair : treePair pairHash leaf n i j = treePair pairHash leaf n i k :=
      hinj ⟨i, j, hi, hj, rfl⟩ ⟨i, k, hi, hk, rfl⟩ heq
    unfold treePair at hpair
    rw [if_pos hreal, Prod.mk.injEq] at hpair
    by_cases hrealk : 2 * k + 1 < treeWidth n i
    · rw [if_pos hrealk] at hpair
      exact ih (by omega) (by linarith) hrealk (by linarith) hpair.2
    · rw [if_neg hrealk] at hpair
      refine ⟨i, j, by linarith, ?_⟩
      rw [← treeNode_eq_fullNode (n := n) (by linarith), ← treeNode_eq_fullNode (n := n) (by linarith),
        hpair.1, hpair.2]

lemma equalSiblings_of_siblings
    (hinj : Set.InjOn (Function.uncurry pairHash) (hashedPairs pairHash leaf n)) {i j : ℕ}
    (hi : i ≤ treeHeight n) (hreal : 2 * j + 1 < treeWidth n i)
    (heq : treeNode pairHash leaf n i (2 * j) = treeNode pairHash leaf n i (2 * j + 1)) :
    EqualSiblings pairHash leaf n := by
  have hleft : (2 * j + 1) * 2 ^ i ≤ n := (lt_treeWidth_iff.mp hreal).le
  by_cases hfull : (2 * j + 2) * 2 ^ i ≤ n
  · refine ⟨i, j, hfull, ?_⟩
    rwa [treeNode_eq_fullNode hleft, treeNode_eq_fullNode hfull] at heq
  · exact equalSiblings_of_notFull hinj hi hleft hreal (not_le.mp hfull) heq

end Siblings

section Injectivity

variable {α : Type*} {pairHash : α → α → α} {leaf leaf' : ℕ → α} {n n' : ℕ}

/-- Two trees agree on a level. -/
def SameLevel (pairHash : α → α → α) (leaf leaf' : ℕ → α) (n n' i : ℕ) : Prop :=
  treeWidth n i = treeWidth n' i ∧
    ∀ j < treeWidth n i, treeNode pairHash leaf n i j = treeNode pairHash leaf' n' i j

lemma treeWidth_le_of_pairs
    (hinj : Set.InjOn (Function.uncurry pairHash) (hashedPairs pairHash leaf' n'))
    (hmutated : ¬ EqualSiblings pairHash leaf' n') {i : ℕ} (hi : i ≤ treeHeight n')
    (hwidth : treeWidth n (i + 1) = treeWidth n' (i + 1))
    (hpairs : ∀ j < treeWidth n (i + 1), treePair pairHash leaf n i j = treePair pairHash leaf' n' i j) :
    treeWidth n' i ≤ treeWidth n i := by
  by_contra hlt
  rw [treeWidth, treeWidth] at hwidth
  obtain ⟨k, hk⟩ : ∃ k, treeWidth n i = 2 * k + 1 := ⟨treeWidth n i / 2, by omega⟩
  have hpair := hpairs k (by rw [treeWidth]; omega)
  have hreal : 2 * k + 1 < treeWidth n' i := by omega
  unfold treePair at hpair
  rw [if_neg (by omega), if_pos hreal, Prod.mk.injEq] at hpair
  exact hmutated (equalSiblings_of_siblings hinj hi hreal (hpair.1.symm.trans hpair.2))

lemma SameLevel.down
    (hinj : Set.InjOn (Function.uncurry pairHash)
      (hashedPairs pairHash leaf n ∪ hashedPairs pairHash leaf' n'))
    (hmutated : ¬ EqualSiblings pairHash leaf n) (hmutated' : ¬ EqualSiblings pairHash leaf' n') {i : ℕ}
    (hi : i < treeHeight n) (hi' : i < treeHeight n') (h : SameLevel pairHash leaf leaf' n n' (i + 1)) :
    SameLevel pairHash leaf leaf' n n' i := by
  obtain ⟨hwidth, hnodes⟩ := h
  have hpairs : ∀ j < treeWidth n (i + 1),
      treePair pairHash leaf n i j = treePair pairHash leaf' n' i j := by
    intro j hj
    exact hinj (Or.inl ⟨i, j, hi, hj, rfl⟩) (Or.inr ⟨i, j, hi', hwidth ▸ hj, rfl⟩) (hnodes j hj)
  have hsame : treeWidth n i = treeWidth n' i := by
    apply le_antisymm
    · exact treeWidth_le_of_pairs (hinj.mono Set.subset_union_left) hmutated hi.le hwidth.symm
        (fun j hj => (hpairs j (hwidth ▸ hj)).symm)
    · exact treeWidth_le_of_pairs (hinj.mono Set.subset_union_right) hmutated' hi'.le hwidth hpairs
  refine ⟨hsame, ?_⟩
  intro j hj
  obtain ⟨k, rfl | rfl⟩ := even_or_odd' j
  · have hpair := hpairs k (by rw [treeWidth]; omega)
    exact congrArg Prod.fst hpair
  · have hpair := hpairs k (by rw [treeWidth]; omega)
    unfold treePair at hpair
    rw [← hsame, if_pos hj, if_pos hj, Prod.mk.injEq] at hpair
    exact hpair.2

/-- Trees of the same height with the same root have the same leaves. -/
theorem leaves_eq_of_treeRoot_eq (hn : 0 < n) (hn' : 0 < n') (hheight : treeHeight n = treeHeight n')
    (hinj : Set.InjOn (Function.uncurry pairHash)
      (hashedPairs pairHash leaf n ∪ hashedPairs pairHash leaf' n'))
    (hmutated : ¬ EqualSiblings pairHash leaf n) (hmutated' : ¬ EqualSiblings pairHash leaf' n')
    (hroot : treeRoot pairHash leaf n = treeRoot pairHash leaf' n') :
    n = n' ∧ ∀ j < n, leaf j = leaf' j := by
  have htop : SameLevel pairHash leaf leaf' n n' (treeHeight n) := by
    have hone := treeWidth_treeHeight hn
    have hone' := treeWidth_treeHeight hn'
    rw [← hheight] at hone'
    refine ⟨hone.trans hone'.symm, ?_⟩
    intro j hj
    rw [hone, lt_one_iff] at hj
    unfold treeRoot at hroot
    rw [← hheight] at hroot
    rwa [hj]
  -- From the root down, one level at a time.
  have hlevel : ∀ k ≤ treeHeight n, SameLevel pairHash leaf leaf' n n' (treeHeight n - k) := by
    intro k
    induction k with
    | zero => exact fun _ => htop
    | succ k ih =>
      intro hk
      apply SameLevel.down hinj hmutated hmutated' (by omega) (by omega)
      rw [show treeHeight n - (k + 1) + 1 = treeHeight n - k by omega]
      exact ih (by omega)
  have hleaves := hlevel (treeHeight n) le_rfl
  rw [Nat.sub_self] at hleaves
  exact hleaves

end Injectivity

/-!
## Levels and branches of a hash tree

The levels of the tree as lists, each the pairs of the one below, and the branch of a leaf: the siblings
on its way to the root.
-/

variable {α : Type*} (pairHash : α → α → α)

section Levels

def nextLevel : List α → List α
  | a :: b :: rest => pairHash a b :: nextLevel rest
  | [a] => [pairHash a a]
  | [] => []

def levelAt (leaves : List α) : ℕ → List α
  | 0 => leaves
  | i + 1 => nextLevel pairHash (levelAt leaves i)

/-- The first level of a single node. -/
def IsLevelRoot (leaves : List α) (root : α) : Prop :=
  ∃ k, levelAt pairHash leaves k = [root] ∧ ∀ i < k, 1 < (levelAt pairHash leaves i).length

variable {pairHash}

lemma nextLevel_getElem? (l : List α) (j : ℕ) :
    (nextLevel pairHash l)[j]? = l[2 * j]?.map (fun a => pairHash a (l[2 * j + 1]?.getD a)) := by
  induction l using nextLevel.induct generalizing j with
  | case1 a b rest ih =>
    cases j with
    | zero => rfl
    | succ j =>
      rw [nextLevel, getElem?_cons_succ, ih]
      rfl
  | case2 a => cases j <;> rfl
  | case3 => rfl

lemma levelAt_getElem? {leaves : List α} {leaf : ℕ → α} (hleaf : ∀ j < leaves.length, leaves[j]? = some (leaf j))
    (i j : ℕ) : (levelAt pairHash leaves i)[j]? =
      if j < treeWidth leaves.length i then some (treeNode pairHash leaf leaves.length i j) else none := by
  induction i generalizing j with
  | zero =>
    split_ifs with hj
    · exact hleaf j hj
    · exact getElem?_eq_none (not_lt.mp hj)
  | succ i ih =>
    rw [levelAt, nextLevel_getElem?, ih, ih, treeNode]
    have hhalf : j < treeWidth leaves.length (i + 1) ↔ 2 * j < treeWidth leaves.length i := by
      rw [treeWidth]
      omega
    by_cases hj : 2 * j < treeWidth leaves.length i
    · rw [if_pos hj, if_pos (hhalf.mpr hj), Option.map_some]
      split_ifs <;> rfl
    · rw [if_neg hj, if_neg (mt hhalf.mp hj), Option.map_none]

lemma length_levelAt {leaves : List α} {leaf : ℕ → α} (hleaf : ∀ j < leaves.length, leaves[j]? = some (leaf j))
    (i : ℕ) : (levelAt pairHash leaves i).length = treeWidth leaves.length i := by
  have hlt : ∀ j, j < (levelAt pairHash leaves i).length ↔ j < treeWidth leaves.length i := by
    intro j
    rw [← not_le, ← getElem?_eq_none_iff, levelAt_getElem? hleaf]
    simp
  exact eq_of_forall_lt_iff hlt

lemma isLevelRoot_treeRoot {leaves : List α} {leaf : ℕ → α}
    (hleaf : ∀ j < leaves.length, leaves[j]? = some (leaf j)) (hne : 0 < leaves.length) :
    IsLevelRoot pairHash leaves (treeRoot pairHash leaf leaves.length) := by
  refine ⟨treeHeight leaves.length, ?_, ?_⟩
  · have hone := treeWidth_treeHeight hne
    obtain ⟨root, hroot⟩ := length_eq_one_iff.mp ((length_levelAt hleaf _).trans hone)
    have hfirst := @levelAt_getElem? α pairHash leaves leaf hleaf (treeHeight leaves.length) 0
    rw [hroot, hone, if_pos one_pos] at hfirst
    rw [hroot, treeRoot, ← Option.some.inj hfirst]
  · intro i hi
    rw [length_levelAt hleaf]
    exact one_lt_treeWidth hi

end Levels

section Siblings

variable (leaf : ℕ → α) (n p : ℕ)

def sibling (i : ℕ) : α :=
  if p / 2 ^ i % 2 = 1 then treeNode pairHash leaf n i (p / 2 ^ i - 1)
  else if p / 2 ^ i + 1 < treeWidth n i then treeNode pairHash leaf n i (p / 2 ^ i + 1)
  else treeNode pairHash leaf n i (p / 2 ^ i)

def climbBranch : List α → ℕ → α → α
  | [], _, hash => hash
  | it :: branch, nIndex, hash =>
    climbBranch branch (nIndex / 2) (if nIndex % 2 = 1 then pairHash it hash else pairHash hash it)

variable {pairHash leaf n p}

lemma over_lt_treeWidth (hp : p < n) (i : ℕ) : p / 2 ^ i < treeWidth n i :=
  lt_treeWidth_iff.mpr ((div_mul_le_self p (2 ^ i)).trans_lt hp)

lemma treeNode_over (hp : p < n) (i : ℕ) : treeNode pairHash leaf n (i + 1) (p / 2 ^ (i + 1)) =
    if p / 2 ^ i % 2 = 1 then pairHash (sibling pairHash leaf n p i) (treeNode pairHash leaf n i (p / 2 ^ i))
    else pairHash (treeNode pairHash leaf n i (p / 2 ^ i)) (sibling pairHash leaf n p i) := by
  have hlt := over_lt_treeWidth hp i
  have hhalf : p / 2 ^ (i + 1) = p / 2 ^ i / 2 := by rw [pow_succ, Nat.div_div_eq_div_mul]
  rw [treeNode, hhalf, sibling]
  generalize p / 2 ^ i = x at hlt ⊢
  by_cases hodd : x % 2 = 1
  · rw [if_pos hodd, if_pos hodd, show 2 * (x / 2) = x - 1 by omega, show x - 1 + 1 = x by omega, if_pos hlt]
  · rw [if_neg hodd, if_neg hodd, show 2 * (x / 2) = x by omega]

lemma climbBranch_siblings (hp : p < n) (i k : ℕ) :
    climbBranch pairHash ((List.range' i k).map (sibling pairHash leaf n p)) (p / 2 ^ i)
      (treeNode pairHash leaf n i (p / 2 ^ i)) = treeNode pairHash leaf n (i + k) (p / 2 ^ (i + k)) := by
  induction k generalizing i with
  | zero => rfl
  | succ k ih =>
    rw [range'_succ, map_cons, climbBranch, ← treeNode_over hp, Nat.div_div_eq_div_mul, ← pow_succ, ih,
      show i + 1 + k = i + (k + 1) by omega]

end Siblings

end MutableBitcoin.Lib
