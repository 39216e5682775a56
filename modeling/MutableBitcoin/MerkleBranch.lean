import MutableBitcoin.MerkleRoot

/-!
# Merkle branches

`MerkleComputation` with the branch of a position.
-/

namespace MutableBitcoin
open Lib

/-- The variables that a climb over zero bits of `count` changes. -/
structure MerkleClimb where
  level : ℕ
  h : Uint256
  mutated : Bool
  matchh : Bool
  branch : List Uint256

/-- The variables of the loop, with the branch. -/
structure MerkleBranchState extends MerkleState where
  /-- `none` is -1. -/
  matchlevel : Option ℕ
  branch : List Uint256

section Computation

variable (sha256 : Bytes → Uint256)

/-- The loop over zero bits of `count`. -/
def climbLevels (inner : ℕ → Uint256) (count : ℕ) (matchlevel : Option ℕ) : ℕ → MerkleClimb → MerkleClimb
  | 0, c => c
  | fuel + 1, c =>
    if count.testBit c.level then c
    else climbLevels inner count matchlevel fuel
      { level := c.level + 1
        h := merklePair sha256 (inner c.level) c.h
        mutated := c.mutated || inner c.level = c.h
        matchh := c.matchh || matchlevel = some c.level
        branch :=
          if c.matchh then c.branch ++ [inner c.level]
          else if matchlevel = some c.level then c.branch ++ [c.h]
          else c.branch }

/-- The leaf loop of `MerkleComputation`. -/
def processLeaf (branchpos : ℕ) (st : MerkleBranchState) (leaf : Uint256) : MerkleBranchState :=
  let c := climbLevels sha256 st.inner (st.count + 1) st.matchlevel 32
    ⟨0, leaf, st.mutated, st.count = branchpos, st.branch⟩
  { inner := Function.update st.inner c.level c.h
    count := st.count + 1
    mutated := c.mutated
    matchlevel := if c.matchh then some c.level else st.matchlevel
    branch := c.branch }

/-- The loop behind the leaves of `MerkleComputation`. -/
def sweepBranch (inner : ℕ → Uint256) (matchlevel : Option ℕ) : ℕ → ℕ → MerkleClimb → Uint256 × List Uint256
  | 0, _, c => (c.h, c.branch)
  | fuel + 1, count, c =>
    if count = 2 ^ c.level then (c.h, c.branch)
    else
      let branch := if c.matchh then c.branch ++ [c.h] else c.branch
      let count := count + 2 ^ c.level
      sweepBranch inner matchlevel fuel count
        (climbLevels sha256 inner count matchlevel 32
          ⟨c.level + 1, merklePair sha256 c.h c.h, false, c.matchh, branch⟩)

/-- The root, the flag `mutated` and the branch. -/
def merkleComputation (leaves : List Uint256) (branchpos : ℕ) : Uint256 × Bool × List Uint256 :=
  if leaves.isEmpty then (BaseBlob.null 32, false, [])
  else
    let st := leaves.foldl (processLeaf sha256 branchpos) ⟨⟨fun _ => BaseBlob.null 32, 0, false⟩, none, []⟩
    let level := lowBit st.count 32 0
    let top := sweepBranch sha256 st.inner st.matchlevel 32 st.count
      ⟨level, st.inner level, false, st.matchlevel = some level, st.branch⟩
    (top.1, st.mutated, top.2)

def computeMerkleBranch (leaves : List Uint256) (position : ℕ) : List Uint256 :=
  (merkleComputation sha256 leaves position).2.2

def computeMerkleRootFromBranch (leaf : Uint256) (vMerkleBranch : List Uint256) (nIndex : ℕ) : Uint256 :=
  (vMerkleBranch.foldl (fun (st : Uint256 × ℕ) it =>
    (if st.2 % 2 = 1 then merklePair sha256 it st.1 else merklePair sha256 st.1 it, st.2 / 2)) (leaf, nIndex)).1

end Computation

section Projection

variable (sha256 : Bytes → Uint256)

lemma climbLevels_eq (inner : ℕ → Uint256) (count : ℕ) (matchlevel : Option ℕ) (fuel : ℕ) (c : MerkleClimb) :
    ((climbLevels sha256 inner count matchlevel fuel c).level, (climbLevels sha256 inner count matchlevel fuel c).h,
      (climbLevels sha256 inner count matchlevel fuel c).mutated) =
        mergeLevels sha256 inner count fuel c.level c.h c.mutated := by
  induction fuel generalizing c with
  | zero => rfl
  | succ fuel ih =>
    unfold climbLevels mergeLevels
    by_cases hbit : count.testBit c.level = true
    · rw [if_pos hbit, if_pos hbit]
    · rw [if_neg hbit, if_neg hbit, ih]

lemma processLeaf_eq (branchpos : ℕ) (st : MerkleBranchState) (leaf : Uint256) :
    (processLeaf sha256 branchpos st leaf).toMerkleState = addLeaf sha256 st.toMerkleState leaf := by
  unfold processLeaf addLeaf
  dsimp only
  rw [← climbLevels_eq sha256 st.inner (st.count + 1) st.matchlevel 32
    ⟨0, leaf, st.mutated, st.count = branchpos, st.branch⟩]

lemma foldl_processLeaf_eq (branchpos : ℕ) (leaves : List Uint256) (st : MerkleBranchState) :
    (leaves.foldl (processLeaf sha256 branchpos) st).toMerkleState =
      leaves.foldl (addLeaf sha256) st.toMerkleState := by
  induction leaves generalizing st with
  | nil => rfl
  | cons leaf leaves ih => rw [List.foldl_cons, List.foldl_cons, ih, processLeaf_eq]

end Projection

section Climb

variable {sha256 : Bytes → Uint256} {leaf : ℕ → Uint256} {n p : ℕ}

/-- How far the branch is known when the climb is at a level: `above` tells whether the node that climbs is
over the position. -/
def branchHeight (above : ℕ → Prop) [DecidablePred above] (matchlevel : Option ℕ) (level : ℕ) : ℕ :=
  if above level then level else matchlevel.getD 0

def knownBranch (sha256 : Bytes → Uint256) (leaf : ℕ → Uint256) (n p height : ℕ) : List Uint256 :=
  (List.range height).map (sibling (merklePair sha256) leaf n p)

lemma knownBranch_succ (height : ℕ) : knownBranch sha256 leaf n p (height + 1) =
    knownBranch sha256 leaf n p height ++ [sibling (merklePair sha256) leaf n p height] := by
  simp [knownBranch, List.range_succ]

/-- The climb has the branch so far. -/
structure MerkleClimb.Tracks (sha256 : Bytes → Uint256) (leaf : ℕ → Uint256) (n p : ℕ) (above : ℕ → Prop)
    [DecidablePred above] (matchlevel : Option ℕ) (c : MerkleClimb) : Prop where
  matchh : c.matchh = true ↔ above c.level
  branch : c.branch = knownBranch sha256 leaf n p (branchHeight above matchlevel c.level)

/-- What one step of a climb needs: the two nodes that are hashed are siblings, and if one is over the
position, the other is what the branch takes. -/
structure ClimbStep (sha256 : Bytes → Uint256) (leaf : ℕ → Uint256) (n p : ℕ) (above : ℕ → Prop)
    (inner node : ℕ → Uint256) (matchlevel : Option ℕ) (i : ℕ) : Prop where
  hash : merklePair sha256 (inner i) (node i) = node (i + 1)
  carry : above (i + 1) ↔ above i ∨ matchlevel = some i
  left : above i → inner i = sibling (merklePair sha256) leaf n p i
  right : ¬ above i → matchlevel = some i → node i = sibling (merklePair sha256) leaf n p i

lemma climbLevels_level (sha256 : Bytes → Uint256) (inner : ℕ → Uint256) (count : ℕ) (matchlevel : Option ℕ) (fuel : ℕ) (c : MerkleClimb) :
    (climbLevels sha256 inner count matchlevel fuel c).level = lowBit count fuel c.level := by
  induction fuel generalizing c with
  | zero => rfl
  | succ fuel ih =>
    unfold climbLevels lowBit
    by_cases hbit : count.testBit c.level = true
    · rw [if_pos hbit, if_pos hbit]
    · rw [if_neg hbit, if_neg hbit, ih]

lemma climbLevels_h {inner node : ℕ → Uint256} {count : ℕ} (matchlevel : Option ℕ) (fuel : ℕ) {c : MerkleClimb}
    (hnode : c.h = node c.level)
    (hstep : ∀ i, c.level ≤ i → i < lowBit count fuel c.level → merklePair sha256 (inner i) (node i) = node (i + 1)) :
    (climbLevels sha256 inner count matchlevel fuel c).h = node (lowBit count fuel c.level) := by
  obtain ⟨mutated, heq, -⟩ := mergeLevels_eq sha256 c.mutated hstep
  rw [← hnode, ← climbLevels_eq sha256 inner count matchlevel fuel c, Prod.mk.injEq, Prod.mk.injEq] at heq
  exact heq.2.1

lemma climbLevels_tracks {above : ℕ → Prop} [DecidablePred above] {inner node : ℕ → Uint256} {count : ℕ}
    {matchlevel : Option ℕ} (fuel : ℕ) {c : MerkleClimb} (h : c.Tracks sha256 leaf n p above matchlevel)
    (hnode : c.h = node c.level)
    (hstep : ∀ i, c.level ≤ i → i < lowBit count fuel c.level →
      ClimbStep sha256 leaf n p above inner node matchlevel i) :
    (climbLevels sha256 inner count matchlevel fuel c).Tracks sha256 leaf n p above matchlevel := by
  induction fuel generalizing c with
  | zero => exact h
  | succ fuel ih =>
    unfold climbLevels
    by_cases hbit : count.testBit c.level = true
    · rwa [if_pos hbit]
    · rw [if_neg hbit]
      have hlow : lowBit count (fuel + 1) c.level = lowBit count fuel (c.level + 1) := by
        rw [lowBit, if_neg hbit]
      have hle := le_lowBit count fuel (c.level + 1)
      have hfirst := hstep c.level le_rfl (by omega)
      refine ih ⟨?_, ?_⟩ ?_ ?_
      · dsimp only
        rw [Bool.or_eq_true, decide_eq_true_eq, h.matchh, hfirst.carry]
      · dsimp only
        by_cases hover : above c.level
        · have hnext : above (c.level + 1) := hfirst.carry.mpr (Or.inl hover)
          rw [if_pos (h.matchh.mpr hover), h.branch, branchHeight, if_pos hover, branchHeight, if_pos hnext,
            knownBranch_succ, hfirst.left hover]
        · rw [if_neg (mt h.matchh.mp hover)]
          by_cases hmatch : matchlevel = some c.level
          · have hnext : above (c.level + 1) := hfirst.carry.mpr (Or.inr hmatch)
            rw [if_pos hmatch, h.branch, branchHeight, if_neg hover, branchHeight, if_pos hnext, hmatch,
              Option.getD_some, knownBranch_succ, hnode, hfirst.right hover hmatch]
          · have hnext : ¬ above (c.level + 1) := fun h => (hfirst.carry.mp h).elim hover hmatch
            rw [if_neg hmatch, h.branch, branchHeight, if_neg hover, branchHeight, if_neg hnext]
      · dsimp only
        rw [hnode, hfirst.hash]
      · intro i hi hlt
        exact hstep i (Nat.le_of_succ_le hi) (hlow ▸ hlt)

end Climb

section Leaves

variable {sha256 : Bytes → Uint256} {leaf : ℕ → Uint256} {n p : ℕ}

/-- `matchlevel` is the level of the node in `inner` that is over the position, if there is one. -/
def IsMatchlevel (count p : ℕ) (matchlevel : Option ℕ) : Prop :=
  ∀ i, matchlevel = some i ↔ count.testBit i = true ∧ p / 2 ^ i + 1 = count / 2 ^ i

/-- The loop has the branch so far. -/
structure MerkleBranchState.Tracks (sha256 : Bytes → Uint256) (leaf : ℕ → Uint256) (n p : ℕ)
    (st : MerkleBranchState) : Prop where
  holds : st.toMerkleState.Holds sha256 leaf
  matchlevel : IsMatchlevel st.count p st.matchlevel
  branch : st.branch = knownBranch sha256 leaf n p (st.matchlevel.getD 0)

lemma div_succ (i : ℕ) : p / 2 ^ (i + 1) = p / 2 ^ i / 2 := by
  rw [pow_succ, Nat.div_div_eq_div_mul]

lemma over_mono {count i k : ℕ} (hik : i ≤ k) (hover : p / 2 ^ i = count / 2 ^ i) : p / 2 ^ k = count / 2 ^ k := by
  obtain ⟨d, rfl⟩ := Nat.exists_eq_add_of_le hik
  rw [pow_add, ← Nat.div_div_eq_div_mul, ← Nat.div_div_eq_div_mul, hover]

lemma carry_div {count k q i : ℕ} (hq : count + 1 = (2 * q + 1) * 2 ^ k) (hi : i < k) :
    ∃ j, count + 1 = (2 * j + 2) * 2 ^ i ∧ count / 2 ^ i = 2 * j + 1 ∧ count / 2 ^ (i + 1) = j := by
  obtain ⟨j, hj⟩ := exists_even_mul hq hi
  have hpos : 0 < 2 ^ i := by positivity
  have hdiv : count / 2 ^ i = 2 * j + 1 := by
    apply Nat.div_eq_of_lt_le <;> nlinarith
  refine ⟨j, hj, hdiv, ?_⟩
  rw [div_succ, hdiv]
  omega

lemma IsMatchlevel.next {count k q : ℕ} {matchlevel : Option ℕ} (h : IsMatchlevel count p matchlevel)
    (hq : count + 1 = (2 * q + 1) * 2 ^ k) :
    IsMatchlevel (count + 1) p (if p / 2 ^ k = count / 2 ^ k then some k else matchlevel) := by
  have hpos : 0 < 2 ^ k := by positivity
  have hcount : count / 2 ^ k = 2 * q := by
    apply Nat.div_eq_of_lt_le <;> nlinarith
  have hnext : (count + 1) / 2 ^ k = 2 * q + 1 := by rw [hq, Nat.mul_div_cancel _ hpos]
  intro i
  rw [testBit_iff]
  obtain hlt | rfl | hlt := lt_trichotomy i k
  · obtain ⟨j, hj, hdiv, hdiv'⟩ := carry_div hq hlt
    have heven : (count + 1) / 2 ^ i = 2 * j + 2 := by rw [hj, Nat.mul_div_cancel _ (by positivity)]
    rw [heven]
    refine iff_of_false ?_ (by omega)
    split_ifs with hover
    · simpa using hlt.ne'
    · intro hmatch
      obtain ⟨-, hdivp⟩ := (h i).mp hmatch
      exact hover (over_mono (Nat.succ_le_of_lt hlt) (by rw [div_succ, hdiv']; omega))
  · rw [hnext, hcount]
    split_ifs with hover
    · simp only [true_iff]
      omega
    · refine iff_of_false ?_ (by omega)
      intro hmatch
      obtain ⟨hbit, -⟩ := (h i).mp hmatch
      rw [testBit_iff] at hbit
      omega
  · rw [div_eq_of_carry hq hlt, ← testBit_iff, ← h i]
    split_ifs with hover
    · refine iff_of_false (by simpa using hlt.ne) ?_
      intro hmatch
      have hdivp := ((h i).mp hmatch).2
      have hover' := over_mono hlt.le hover
      omega
    · rfl

lemma MerkleBranchState.Tracks.climbStep {st : MerkleBranchState} (h : st.Tracks sha256 leaf n p) {k q i : ℕ}
    (hq : st.count + 1 = (2 * q + 1) * 2 ^ k) (hi : i < k) (hlt : st.count < n) :
    ClimbStep sha256 leaf n p (fun i => p / 2 ^ i = st.count / 2 ^ i) st.inner
      (fun i => fullNode (merklePair sha256) leaf i (st.count / 2 ^ i)) st.matchlevel i := by
  obtain ⟨j, hj, hdiv, hdiv'⟩ := carry_div hq hi
  have hpos : 0 < 2 ^ i := by positivity
  have hinner := h.holds.inner_carry (show st.count + 1 = (j + 1) * 2 ^ (i + 1) by rw [hj, pow_succ]; ring)
  have hmatch := h.matchlevel i
  rw [testBit_iff, hdiv] at hmatch
  constructor
  · rw [hinner, hdiv, hdiv']
    rfl
  · rw [hmatch, div_succ, hdiv', hdiv]
    omega
  · intro hover
    rw [hdiv] at hover
    rw [hinner, sibling, hover, if_pos (by omega), Nat.add_sub_cancel, treeNode_eq_fullNode (by nlinarith)]
  · intro _ hlevel
    have hover : p / 2 ^ i = 2 * j := by
      have := (hmatch.mp hlevel).2
      omega
    have hreal : 2 * j + 1 < treeWidth n i := lt_treeWidth_iff.mpr (by nlinarith)
    rw [hdiv, sibling, hover, if_neg (by omega), if_pos hreal, treeNode_eq_fullNode (by nlinarith)]

lemma processLeaf_tracks {st : MerkleBranchState} (h : st.Tracks sha256 leaf n p) (hlimit : n ≤ 2 ^ 32)
    (hlt : st.count < n) : (processLeaf sha256 p st (leaf st.count)).Tracks sha256 leaf n p := by
  obtain ⟨q, hq⟩ := exists_carry (Nat.add_one_pos st.count) (by omega)
  have hstart : MerkleClimb.Tracks sha256 leaf n p (fun i => p / 2 ^ i = st.count / 2 ^ i) st.matchlevel
      ⟨0, leaf st.count, st.mutated, st.count = p, st.branch⟩ := by
    constructor
    · simp [eq_comm]
    · have hnone : p = st.count → st.matchlevel = none := by
        rintro rfl
        apply Option.eq_none_iff_forall_ne_some.mpr
        intro i hi
        have := ((h.matchlevel i).mp hi).2
        omega
      dsimp only
      rw [h.branch, branchHeight]
      split_ifs with hover
      · rw [hnone (by simpa using hover)]
        rfl
      · rfl
  have hclimb := climbLevels_tracks 32 hstart (by simp [fullNode]) (fun i _ hi => h.climbStep hq hi hlt)
  have hlevel := climbLevels_level sha256 st.inner (st.count + 1) st.matchlevel 32
    ⟨0, leaf st.count, st.mutated, st.count = p, st.branch⟩
  have hmatch : (processLeaf sha256 p st (leaf st.count)).matchlevel =
      if p / 2 ^ lowBit (st.count + 1) 32 0 = st.count / 2 ^ lowBit (st.count + 1) 32 0
      then some (lowBit (st.count + 1) 32 0) else st.matchlevel := by
    have hover := hclimb.matchh
    rw [hlevel] at hover
    simp only [processLeaf, hover, hlevel]
  refine ⟨?_, ?_, ?_⟩
  · rw [processLeaf_eq]
    exact (addLeaf_holds h.holds (by omega)).1
  · rw [hmatch]
    exact h.matchlevel.next hq
  · have hbranch := hclimb.branch
    rw [hlevel, branchHeight] at hbranch
    rw [hmatch]
    refine hbranch.trans ?_
    split_ifs <;> rfl

lemma foldl_processLeaf_tracks {st : MerkleBranchState} (rest : List Uint256) (h : st.Tracks sha256 leaf n p)
    (hrest : ∀ j < rest.length, leaf (st.count + j) = leafAt rest j) (hn : st.count + rest.length ≤ n)
    (hlimit : n ≤ 2 ^ 32) : (rest.foldl (processLeaf sha256 p) st).Tracks sha256 leaf n p := by
  induction rest generalizing st with
  | nil => exact h
  | cons a rest ih =>
    rw [List.length_cons] at hn hrest
    have ha : leaf st.count = a := by simpa [leafAt] using hrest 0 (Nat.succ_pos _)
    have hnext := processLeaf_tracks h hlimit (by omega)
    rw [ha] at hnext
    have hcount : (processLeaf sha256 p st a).count = st.count + 1 := rfl
    apply ih hnext
    · intro j hj
      have hsucc := hrest (j + 1) (by omega)
      rw [hcount, add_right_comm, add_assoc, hsucc]
      simp [leafAt]
    · rw [hcount]
      omega

end Leaves

section SweepBranch

variable {sha256 : Bytes → Uint256} {leaf : ℕ → Uint256} {n p count : ℕ} {inner : ℕ → Uint256}
  {matchlevel : Option ℕ}

lemma sweep_climbStep (hinner : ∀ level, n.testBit level = true →
      inner level = fullNode (merklePair sha256) leaf level (n / 2 ^ level - 1))
    (hmatch : IsMatchlevel n p matchlevel) (hn : 0 < n) {i : ℕ} (hpart : ¬ 2 ^ i ∣ n) (heven : treeWidth n i % 2 = 0) :
    ClimbStep sha256 leaf n p (fun i => p / 2 ^ i + 1 = treeWidth n i) inner
      (fun i => treeNode (merklePair sha256) leaf n i (treeWidth n i - 1)) matchlevel i := by
  have hleft := inner_of_even hinner hpart heven
  have hpos := treeWidth_pos hn i
  have hwidth : treeWidth n i = n / 2 ^ i + 1 := treeWidth_of_not_dvd hpart
  have hmatch := hmatch i
  rw [testBit_iff] at hmatch
  constructor
  · rw [hleft, treeNode_of_even hpos heven]
  · rw [hmatch, div_succ, treeWidth]
    omega
  · intro hover
    have hodd : p / 2 ^ i = treeWidth n i - 1 := by omega
    rw [hleft, sibling, hodd, if_pos (by omega)]
    rfl
  · intro _ hlevel
    have hover : p / 2 ^ i = treeWidth n i - 2 := by
      have := (hmatch.mp hlevel).2
      omega
    rw [sibling, hover, if_neg (by omega), if_pos (by omega), show treeWidth n i - 2 + 1 = treeWidth n i - 1 by omega]

lemma branch_of_top (hp : p < n) {c : MerkleClimb}
    (hc : c.Tracks sha256 leaf n p (fun i => p / 2 ^ i + 1 = treeWidth n i) matchlevel)
    (htop : c.level = treeHeight n) : c.branch = knownBranch sha256 leaf n p (treeHeight n) := by
  have hover : p / 2 ^ treeHeight n + 1 = treeWidth n (treeHeight n) := by
    rw [treeWidth_treeHeight ((Nat.zero_le p).trans_lt hp), Nat.div_eq_of_lt]
    exact hp.trans_le (Nat.le_pow_clog one_lt_two n)
  rw [hc.branch, htop, branchHeight, if_pos hover]

lemma MerkleClimb.Tracks.odd (hp : p < n) {c : MerkleClimb} (hodd : treeWidth n c.level % 2 = 1)
    (hnode : c.h = treeNode (merklePair sha256) leaf n c.level (treeWidth n c.level - 1))
    (hc : c.Tracks sha256 leaf n p (fun i => p / 2 ^ i + 1 = treeWidth n i) matchlevel) :
    MerkleClimb.Tracks sha256 leaf n p (fun i => p / 2 ^ i + 1 = treeWidth n i) matchlevel
        ⟨c.level + 1, merklePair sha256 c.h c.h, false, c.matchh, if c.matchh then c.branch ++ [c.h] else c.branch⟩ ∧
      merklePair sha256 c.h c.h =
        treeNode (merklePair sha256) leaf n (c.level + 1) (treeWidth n (c.level + 1) - 1) := by
  have hlt := over_lt_treeWidth hp c.level
  have hover : p / 2 ^ (c.level + 1) + 1 = treeWidth n (c.level + 1) ↔ p / 2 ^ c.level + 1 = treeWidth n c.level := by
    rw [div_succ, treeWidth]
    omega
  refine ⟨⟨hc.matchh.trans hover.symm, ?_⟩, ?_⟩
  · dsimp only
    have hbranch := hc.branch
    by_cases hlast : p / 2 ^ c.level + 1 = treeWidth n c.level
    · have hself : sibling (merklePair sha256) leaf n p c.level = c.h := by
        rw [sibling, if_neg (by omega), if_neg (by omega), hnode]
        congr 1
        omega
      rw [branchHeight, if_pos hlast] at hbranch
      rw [if_pos (hc.matchh.mpr hlast), branchHeight, if_pos (hover.mpr hlast), knownBranch_succ, hbranch, hself]
    · rw [branchHeight, if_neg hlast] at hbranch
      rw [if_neg (mt hc.matchh.mp hlast), branchHeight, if_neg (mt hover.mp hlast), hbranch]
  · rw [hnode, treeNode_of_odd hodd]

lemma sweepBranch_tracks (hinner : ∀ level, n.testBit level = true →
      inner level = fullNode (merklePair sha256) leaf level (n / 2 ^ level - 1))
    (hmatch : IsMatchlevel n p matchlevel) (hp : p < n) (hlimit : n ≤ 2 ^ 32) (fuel : ℕ) {c : MerkleClimb}
    (hlevel : SweepLevel n count c.level) (hfuel : treeHeight n ≤ c.level + fuel)
    (hnode : c.h = treeNode (merklePair sha256) leaf n c.level (treeWidth n c.level - 1))
    (hc : c.Tracks sha256 leaf n p (fun i => p / 2 ^ i + 1 = treeWidth n i) matchlevel) :
    (sweepBranch sha256 inner matchlevel fuel count c).2 = knownBranch sha256 leaf n p (treeHeight n) := by
  have hn : 0 < n := (Nat.zero_le p).trans_lt hp
  induction fuel generalizing count c with
  | zero =>
    have hle := hlevel.le
    exact branch_of_top hp hc (by omega)
  | succ fuel ih =>
    unfold sweepBranch
    by_cases hstop : count = 2 ^ c.level
    · rw [if_pos hstop]
      exact branch_of_top hp hc (hlevel.eq_treeHeight hstop)
    · rw [if_neg hstop]
      dsimp only
      obtain ⟨hnext, heven⟩ := hlevel.next hn hlimit hstop
      have hlow := le_lowBit (count + 2 ^ c.level) 32 (c.level + 1)
      obtain ⟨hstart, hfirst⟩ := hc.odd hp hlevel.odd hnode
      generalize hnew : (⟨c.level + 1, merklePair sha256 c.h c.h, false, c.matchh,
        if c.matchh then c.branch ++ [c.h] else c.branch⟩ : MerkleClimb) = new at hstart ⊢
      obtain ⟨hl, hh⟩ : new.level = c.level + 1 ∧ new.h = merklePair sha256 c.h c.h := by
        rw [← hnew]
        exact ⟨rfl, rfl⟩
      rw [← hh, ← hl] at hfirst
      rw [← hl] at hnext heven hlow
      have hclimb := fun i hi hil =>
        sweep_climbStep hinner hmatch hn (heven i hi hil).2 (heven i hi hil).1
      have hnode' := climbLevels_h matchlevel 32 hfirst (fun i hi hil => (hclimb i hi hil).hash)
      have hlevel' := climbLevels_level sha256 inner (count + 2 ^ c.level) matchlevel 32 new
      apply ih
      · rw [hlevel']
        exact hnext
      · omega
      · rw [hnode', hlevel']
      · exact climbLevels_tracks 32 hstart hfirst hclimb

end SweepBranch

section Branch

variable (sha256 : Bytes → Uint256)

lemma computeMerkleBranch_eq {leaves : List Uint256} (hlimit : leaves.length ≤ 2 ^ 32) {p : ℕ}
    (hp : p < leaves.length) : computeMerkleBranch sha256 leaves p =
      knownBranch sha256 (leafAt leaves) leaves.length p (treeHeight leaves.length) := by
  have hn : 0 < leaves.length := (Nat.zero_le p).trans_lt hp
  have hinit : MerkleBranchState.Tracks sha256 (leafAt leaves) leaves.length p
      ⟨⟨fun _ => BaseBlob.null 32, 0, false⟩, none, []⟩ := by
    refine ⟨initial_holds sha256 (leafAt leaves), ?_, rfl⟩
    intro i
    rw [Nat.zero_testBit]
    simp
  have htracks := foldl_processLeaf_tracks leaves hinit (fun j _ => by rw [zero_add]) (by simp) hlimit
  obtain ⟨-, hcount⟩ := foldl_addLeaf_holds leaves (initial_holds sha256 (leafAt leaves))
    (fun j _ => by rw [zero_add]) (by simpa using hlimit)
  rw [← foldl_processLeaf_eq sha256 p leaves ⟨⟨fun _ => BaseBlob.null 32, 0, false⟩, none, []⟩, zero_add] at hcount
  unfold computeMerkleBranch merkleComputation
  rw [if_neg (by simpa using List.length_pos_iff.mp hn)]
  dsimp only
  generalize leaves.foldl (processLeaf sha256 p) ⟨⟨fun _ => BaseBlob.null 32, 0, false⟩, none, []⟩ = st
    at htracks hcount ⊢
  obtain ⟨hholds, hmatch, hbranch⟩ := htracks
  have hinner := hholds.inner
  rw [hcount] at hinner hmatch ⊢
  obtain ⟨hlevel, hwidth⟩ := sweepLevel_lowBit hn hlimit
  have hheight : treeHeight leaves.length ≤ 32 := Nat.clog_le_of_le_pow hlimit
  have hover : st.matchlevel = some (lowBit leaves.length 32 0) ↔
      p / 2 ^ lowBit leaves.length 32 0 + 1 = treeWidth leaves.length (lowBit leaves.length 32 0) := by
    rw [hmatch, testBit_iff, ← hwidth]
    exact and_iff_right hlevel.odd
  apply sweepBranch_tracks hinner hmatch hp hlimit 32 hlevel (by omega) (inner_lowBit hn hlimit hinner)
  refine ⟨by simpa using hover, ?_⟩
  dsimp only
  rw [hbranch, branchHeight]
  split_ifs with hlast
  · rw [hover.mpr hlast]
    rfl
  · rfl

lemma computeMerkleRootFromBranch_eq (leaf : Uint256) (vMerkleBranch : List Uint256) (nIndex : ℕ) :
    computeMerkleRootFromBranch sha256 leaf vMerkleBranch nIndex =
      climbBranch (merklePair sha256) vMerkleBranch nIndex leaf := by
  induction vMerkleBranch generalizing leaf nIndex with
  | nil => rfl
  | cons it vMerkleBranch ih => exact ih _ _

lemma leafAt_getElem? (leaves : List Uint256) : ∀ j < leaves.length, leaves[j]? = some (leafAt leaves j) := by
  intro j hj
  simp [leafAt, hj]

/-- Two equal siblings on a level. -/
def EqualLevelSiblings (leaves : List Uint256) (i j : ℕ) : Prop :=
  ∃ a, (levelAt (merklePair sha256) leaves i)[2 * j]? = some a ∧
    (levelAt (merklePair sha256) leaves i)[2 * j + 1]? = some a

lemma equalLevelSiblings_iff {leaves : List Uint256} {i j : ℕ} : EqualLevelSiblings sha256 leaves i j ↔
    2 * j + 1 < treeWidth leaves.length i ∧
      treeNode (merklePair sha256) (leafAt leaves) leaves.length i (2 * j) =
        treeNode (merklePair sha256) (leafAt leaves) leaves.length i (2 * j + 1) := by
  simp only [EqualLevelSiblings, levelAt_getElem? (leafAt_getElem? leaves)]
  constructor
  · rintro ⟨a, hleft, hright⟩
    split_ifs at hleft hright with hj hj'
    exact ⟨hj', (Option.some.inj hleft).trans (Option.some.inj hright).symm⟩
  · rintro ⟨hreal, heq⟩
    rw [if_pos (by omega), if_pos hreal, heq]
    exact ⟨_, rfl, rfl⟩

/-- The root is that of the levels. The flag tells whether two siblings with complete subtrees are equal,
which are all siblings if the hash does not collide. The branch of every leaf leads to the root. -/
theorem merkleComputation_spec (leaves : List Uint256) (hne : leaves ≠ []) (hlimit : leaves.length ≤ 2 ^ 31) :
    IsLevelRoot (merklePair sha256) leaves (computeMerkleRoot sha256 leaves).1 ∧
    ((computeMerkleRoot sha256 leaves).2 = true ↔
      ∃ i j, (2 * j + 2) * 2 ^ i ≤ leaves.length ∧ EqualLevelSiblings sha256 leaves i j) ∧
    (Set.InjOn (fun p => merklePair sha256 p.1 p.2)
        (hashedPairs (merklePair sha256) (leafAt leaves) leaves.length) →
      ((computeMerkleRoot sha256 leaves).2 = true ↔ ∃ i j, EqualLevelSiblings sha256 leaves i j)) ∧
    ∀ p (hp : p < leaves.length), computeMerkleRootFromBranch sha256 leaves[p] (computeMerkleBranch sha256 leaves p) p =
      (computeMerkleRoot sha256 leaves).1 := by
  have hlimit' : leaves.length ≤ 2 ^ 32 := hlimit.trans (by norm_num)
  have hn : 0 < leaves.length := List.length_pos_iff.mpr hne
  obtain ⟨hroot, hflag⟩ := computeMerkleRoot_spec sha256 hne hlimit'
  have hfull : EqualSiblings (merklePair sha256) (leafAt leaves) leaves.length ↔
      ∃ i j, (2 * j + 2) * 2 ^ i ≤ leaves.length ∧ EqualLevelSiblings sha256 leaves i j := by
    apply exists_congr
    intro i
    apply exists_congr
    intro j
    apply and_congr_right
    intro hle
    have hpos : 0 < 2 ^ i := by positivity
    rw [equalLevelSiblings_iff, treeNode_eq_fullNode (by nlinarith), treeNode_eq_fullNode hle]
    exact (and_iff_right (lt_treeWidth_iff.mpr (by nlinarith))).symm
  refine ⟨?_, hflag.trans hfull, ?_, ?_⟩
  · rw [hroot]
    exact isLevelRoot_treeRoot (leafAt_getElem? leaves) hn
  · intro hinj
    rw [hflag]
    constructor
    · intro hequal
      obtain ⟨i, j, -, hsiblings⟩ := hfull.mp hequal
      exact ⟨i, j, hsiblings⟩
    · rintro ⟨i, j, hsiblings⟩
      obtain ⟨hreal, heq⟩ := (equalLevelSiblings_iff sha256).mp hsiblings
      refine equalSiblings_of_siblings hinj ?_ hreal heq
      by_contra hhigh
      have hone : treeWidth leaves.length i = 1 := treeWidth_of_treeHeight_le hn (not_le.mp hhigh).le
      omega
  · intro p hp
    have hleaf : leaves[p] = treeNode (merklePair sha256) (leafAt leaves) leaves.length 0 (p / 2 ^ 0) := by
      simp [treeNode, leafAt, hp]
    have hzero : p / 2 ^ treeHeight leaves.length = 0 :=
      Nat.div_eq_of_lt (hp.trans_le (Nat.le_pow_clog one_lt_two _))
    have hclimb := @climbBranch_siblings _ (merklePair sha256) (leafAt leaves) _ _ hp 0 (treeHeight leaves.length)
    rw [zero_add, hzero, ← List.range_eq_range', ← hleaf, pow_zero, Nat.div_one] at hclimb
    rw [computeMerkleRootFromBranch_eq, computeMerkleBranch_eq sha256 hlimit' hp, hroot]
    exact hclimb

theorem merkleComputation_spec_threeLeaves :
    IsLevelRoot (merklePair cSHA256) threeLeaves (computeMerkleRoot cSHA256 threeLeaves).1 ∧
    (¬ ∃ i j, EqualLevelSiblings cSHA256 threeLeaves i j) ∧
    computeMerkleRootFromBranch cSHA256 (BaseBlob.ofNat 32 3) (computeMerkleBranch cSHA256 threeLeaves 2) 2 =
      (computeMerkleRoot cSHA256 threeLeaves).1 := by
  obtain ⟨hroot, -, hflag, hbranch⟩ := merkleComputation_spec cSHA256 threeLeaves (by decide) (by decide)
  refine ⟨hroot, ?_, hbranch 2 (by decide)⟩
  rw [← hflag injOn_threeLeaves]
  decide +kernel

/-- With a hash that maps all pairs to one value, the two nodes under the root are equal. They are not
compared, since the right one stands over a repeated leaf. -/
theorem computeMerkleRoot_collidingHash :
    ¬ ((computeMerkleRoot (fun _ => BaseBlob.null 32) threeLeaves).2 = true ↔
      ∃ i j, EqualLevelSiblings (fun _ => BaseBlob.null 32) threeLeaves i j) := by
  have hflag : (computeMerkleRoot (fun _ => BaseBlob.null 32) threeLeaves).2 = false := by decide +kernel
  have hequal : EqualLevelSiblings (fun _ => BaseBlob.null 32) threeLeaves 1 0 := ⟨BaseBlob.null 32, rfl, rfl⟩
  intro h
  exact Bool.false_ne_true (hflag.symm.trans (h.mpr ⟨1, 0, hequal⟩))

end Branch

end MutableBitcoin
