import MutableBitcoin.PartialMerkleTree

/-!
# What a partial merkle tree proves

A tree built from distinct ids is read back with the matched ids and their positions.
-/

namespace MutableBitcoin
open Lib List Nat

section Width

lemma calcTreeWidth_eq (n i : ℕ) : calcTreeWidth n i = treeWidth n i := by
  refine eq_of_forall_lt_iff (fun j => ?_)
  have hpos : 0 < 2 ^ i := by positivity
  rw [lt_treeWidth_iff, calcTreeWidth, ← succ_le_iff, le_div_iff_mul_le hpos, succ_mul]
  omega

lemma climbHeight_eq {n : ℕ} (hn : 0 < n) {fuel height : ℕ} (hle : height ≤ treeHeight n)
    (hfuel : treeHeight n ≤ height + fuel) : climbHeight n fuel height = treeHeight n := by
  induction fuel generalizing height with
  | zero => exact le_antisymm hle hfuel
  | succ fuel ih =>
    unfold climbHeight
    rw [calcTreeWidth_eq]
    obtain rfl | hlt := hle.eq_or_lt
    · rw [if_neg (by rw [treeWidth_treeHeight hn]; omega)]
    · rw [if_pos (one_lt_treeWidth hlt)]
      exact ih hlt (by omega)

lemma calcHeight_eq {n : ℕ} (hn : 0 < n) : calcHeight n = treeHeight n := by
  apply climbHeight_eq hn (zero_le _)
  rw [zero_add]
  exact Nat.clog_le_of_le_pow Nat.lt_two_pow_self.le

end Width

section Leaves

variable (n : ℕ)

def leavesBelow (height pos : ℕ) : List ℕ :=
  (List.range' (pos * 2 ^ height) (2 ^ height)).filter (fun p => decide (p < n))

lemma leavesBelow_succ (height pos : ℕ) : leavesBelow n (height + 1) pos =
    leavesBelow n height (2 * pos) ++ leavesBelow n height (2 * pos + 1) := by
  have hsplit : List.range' (pos * 2 ^ (height + 1)) (2 ^ (height + 1)) =
      List.range' (2 * pos * 2 ^ height) (2 ^ height) ++
        List.range' ((2 * pos + 1) * 2 ^ height) (2 ^ height) := by
    have hstart : pos * 2 ^ (height + 1) = 2 * pos * 2 ^ height := by ring
    have hnext : (2 * pos + 1) * 2 ^ height = 2 * pos * 2 ^ height + 2 ^ height := by ring
    rw [hstart, hnext, range'_append_1, pow_succ, mul_two]
  rw [leavesBelow, hsplit, filter_append]
  rfl

lemma leavesBelow_of_width_le {height pos : ℕ} (h : treeWidth n height ≤ pos) :
    leavesBelow n height pos = [] := by
  have hbeyond : n ≤ pos * 2 ^ height := not_lt.mp (fun hlt => absurd (lt_treeWidth_iff.mpr hlt) (not_lt.mpr h))
  apply filter_eq_nil_iff.mpr
  intro p hp
  rw [mem_range'_1] at hp
  simp
  omega

lemma length_leavesBelow_pos {height pos : ℕ} (h : pos < treeWidth n height) :
    0 < (leavesBelow n height pos).length := by
  apply length_pos_of_mem (a := pos * 2 ^ height)
  have hpos : 0 < 2 ^ height := by positivity
  rw [leavesBelow, mem_filter, mem_range'_1]
  exact ⟨⟨le_rfl, by omega⟩, decide_eq_true (lt_treeWidth_iff.mp h)⟩

lemma leavesBelow_root : leavesBelow n (treeHeight n) 0 = List.range n := by
  have hle : n ≤ 2 ^ treeHeight n := le_pow_clog one_lt_two n
  obtain ⟨k, hk⟩ := Nat.exists_eq_add_of_le hle
  rw [leavesBelow, zero_mul, hk, ← range'_append_1, filter_append, range_eq_range']
  have hleft : (List.range' 0 n).filter (fun p => decide (p < n)) = List.range' 0 n := by
    apply filter_eq_self.mpr
    intro p hp
    rw [mem_range'_1] at hp
    simp
    omega
  have hright : (List.range' (0 + n) k).filter (fun p => decide (p < n)) = [] := by
    apply filter_eq_nil_iff.mpr
    intro p hp
    rw [mem_range'_1] at hp
    simp
    omega
  rw [hleft, hright, append_nil]

end Leaves

section Siblings

variable {α : Type*} {pairHash : α → α → α} {leaf : ℕ → α} {n : ℕ}

lemma leaf_eq_of_fullNode_eq
    (hinj : Set.InjOn (Function.uncurry pairHash) (hashedPairs pairHash leaf n)) {i j k : ℕ}
    (hi : i ≤ treeHeight n) (hj : (j + 1) * 2 ^ i ≤ n) (hk : (k + 1) * 2 ^ i ≤ n)
    (heq : fullNode pairHash leaf i j = fullNode pairHash leaf i k) :
    leaf (j * 2 ^ i) = leaf (k * 2 ^ i) := by
  induction i generalizing j k with
  | zero => simpa [fullNode] using heq
  | succ i ih =>
    have hpos : 0 < 2 ^ (i + 1) := by positivity
    have hwidth : ∀ l, (l + 1) * 2 ^ (i + 1) ≤ n → l < treeWidth n (i + 1) := by
      intro l hl
      rw [lt_treeWidth_iff]
      linarith
    have hpair : treePair pairHash leaf n i j = treePair pairHash leaf n i k := by
      apply hinj ⟨i, j, hi, hwidth j hj, rfl⟩ ⟨i, k, hi, hwidth k hk, rfl⟩
      rw [← treeNode_succ, ← treeNode_succ, treeNode_eq_fullNode hj, treeNode_eq_fullNode hk, heq]
    have hhalf : ∀ l, (l + 1) * 2 ^ (i + 1) ≤ n → (2 * l + 1) * 2 ^ i ≤ n := by
      intro l hl
      rw [pow_succ] at hl hpos
      linarith
    have hleft := congrArg Prod.fst hpair
    unfold treePair at hleft
    rw [treeNode_eq_fullNode (hhalf j hj), treeNode_eq_fullNode (hhalf k hk)] at hleft
    have hleaf := ih (by omega) (hhalf j hj) (hhalf k hk) hleft
    rwa [show 2 * j * 2 ^ i = j * 2 ^ (i + 1) by ring, show 2 * k * 2 ^ i = k * 2 ^ (i + 1) by ring] at hleaf

lemma not_equalSiblings
    (hinj : Set.InjOn (Function.uncurry pairHash) (hashedPairs pairHash leaf n))
    (hleaf : Set.InjOn leaf (Set.Iio n)) : ¬ EqualSiblings pairHash leaf n := by
  rintro ⟨i, j, hle, heq⟩
  have hpos : 0 < 2 ^ i := by positivity
  have hright : (2 * j + 1 + 1) * 2 ^ i ≤ n := hle
  have hi : i ≤ treeHeight n := by
    have hpow : 2 ^ i ≤ 2 ^ treeHeight n := by
      refine le_trans ?_ (le_pow_clog one_lt_two n)
      nlinarith
    exact (Nat.pow_le_pow_iff_right one_lt_two).mp hpow
  have hsame := leaf_eq_of_fullNode_eq hinj hi (by linarith) hright heq
  have hfirst : 2 * j * 2 ^ i = (2 * j + 1) * 2 ^ i := by
    apply hleaf _ _ hsame <;> rw [Set.mem_Iio] <;> nlinarith
  nlinarith

end Siblings

namespace CPartialMerkleTree

section Completeness

variable (sha256 : Bytes → Uint256) (vTxid : List Uint256) (vMatch : List Bool)

lemma calcHash_eq (height pos : ℕ) : calcHash sha256 vTxid height pos =
    treeNode (merklePair sha256) (leafAt vTxid) vTxid.length height pos := by
  induction height generalizing pos with
  | zero => rfl
  | succ height ih =>
    have hcomm : pos * 2 = 2 * pos := mul_comm pos 2
    rw [calcHash, treeNode, calcTreeWidth_eq, hcomm, ih (2 * pos), ih (2 * pos + 1)]

def matched (height pos : ℕ) : List ℕ :=
  (leavesBelow vTxid.length height pos).filter (fun p => vMatch.getD p false)

lemma matched_succ (height pos : ℕ) : matched vTxid vMatch (height + 1) pos =
    matched vTxid vMatch height (2 * pos) ++ matched vTxid vMatch height (2 * pos + 1) := by
  rw [matched, leavesBelow_succ, filter_append]
  rfl

lemma parentOfMatch_eq_false_iff {height pos : ℕ} :
    parentOfMatch vTxid vMatch height pos = false ↔ matched vTxid vMatch height pos = [] := by
  rw [parentOfMatch, any_eq_false, matched, leavesBelow, filter_filter, filter_eq_nil_iff]
  simp only [Bool.and_comm]

def ExtractState.after (st : ExtractState) (bits : List Bool) (hashes : List Uint256)
    (positions : List ℕ) : ExtractState :=
  ⟨st.nBitsUsed + bits.length, st.nHashUsed + hashes.length,
    st.vMatch ++ positions.map (leafAt vTxid), st.vnIndex ++ positions, st.fBad⟩

/-- A subtree and the bits and hashes it is flattened to. -/
structure Flattened (height pos : ℕ) (bits : List Bool) (hashes : List Uint256) : Prop where
  build : ∀ t, traverseAndBuild sha256 vTxid vMatch height pos t =
    ⟨t.nTransactions, t.vBits ++ bits, t.vHash ++ hashes, t.fBad⟩
  extract : ∀ t : CPartialMerkleTree, ∀ st restBits restHashes, t.nTransactions.toNat = vTxid.length →
    t.vBits.drop st.nBitsUsed = bits ++ restBits → t.vHash.drop st.nHashUsed = hashes ++ restHashes →
    traverseAndExtract sha256 t height pos st =
      (treeNode (merklePair sha256) (leafAt vTxid) vTxid.length height pos,
        st.after vTxid bits hashes (matched vTxid vMatch height pos))
  bits_lt : bits.length < 2 ^ (height + 1)
  hashes_le_bits : hashes.length ≤ bits.length
  hashes_le_leaves : hashes.length ≤ (leavesBelow vTxid.length height pos).length

variable {sha256 vTxid vMatch}

lemma drop_add_of_drop {α : Type*} {l a rest : List α} {i : ℕ} (h : l.drop i = a ++ rest) :
    l.drop (i + a.length) = rest := by
  rw [← drop_drop, h, drop_left]

lemma getElem?_of_drop {α : Type*} {l rest : List α} {a : α} {i : ℕ} (h : l.drop i = a :: rest) :
    l[i]? = some a := by
  rw [← head?_drop, h, head?_cons]

lemma flattened_stop {height pos : ℕ} (hpos : pos < treeWidth vTxid.length height)
    (hstop : height = 0 ∨ parentOfMatch vTxid vMatch height pos = false) :
    Flattened sha256 vTxid vMatch height pos [parentOfMatch vTxid vMatch height pos]
      [treeNode (merklePair sha256) (leafAt vTxid) vTxid.length height pos] where
  build t := by
    cases height with
    | zero => rfl
    | succ height =>
      obtain hzero | hnone := hstop
      · cases hzero
      · rw [traverseAndBuild, hnone, calcHash_eq]
        rfl
  extract t st restBits restHashes hn hbits hhashes := by
    have hbit := getElem?_of_drop hbits
    have hhash := getElem?_of_drop hhashes
    cases height with
    | zero =>
      have hleaf : leavesBelow vTxid.length 0 pos = [pos] := by
        simpa [leavesBelow, treeWidth] using hpos
      rw [traverseAndExtract, hbit]
      dsimp only [takeHash]
      rw [hhash]
      have hmatch : parentOfMatch vTxid vMatch 0 pos = vMatch.getD pos false := by
        have hlt : pos < vTxid.length := hpos
        simp [parentOfMatch, hlt]
      rw [hmatch, matched, hleaf, getD_eq_getElem?_getD]
      cases hget : vMatch[pos]?.getD false
      · simp [ExtractState.after, treeNode, hget]
      · simp [ExtractState.after, treeNode, hget]
    | succ height =>
      obtain hzero | hnone := hstop
      · cases hzero
      · rw [hnone] at hbit
        rw [traverseAndExtract, hbit]
        dsimp only [takeHash]
        rw [hhash, (parentOfMatch_eq_false_iff vTxid vMatch).mp hnone]
        simp [ExtractState.after]
  bits_lt := by
    have hpow : 0 < 2 ^ height := by positivity
    rw [length_singleton, pow_succ]
    omega
  hashes_le_bits := le_rfl
  hashes_le_leaves := length_leavesBelow_pos _ hpos

lemma flattened_pair {height pos : ℕ} {bits bits' : List Bool} {hashes hashes' : List Uint256}
    (hparent : parentOfMatch vTxid vMatch (height + 1) pos = true)
    (hreal : 2 * pos + 1 < treeWidth vTxid.length height)
    (hdistinct : treeNode (merklePair sha256) (leafAt vTxid) vTxid.length height (2 * pos + 1) ≠
      treeNode (merklePair sha256) (leafAt vTxid) vTxid.length height (2 * pos))
    (hleft : Flattened sha256 vTxid vMatch height (2 * pos) bits hashes)
    (hright : Flattened sha256 vTxid vMatch height (2 * pos + 1) bits' hashes') :
    Flattened sha256 vTxid vMatch (height + 1) pos (true :: (bits ++ bits')) (hashes ++ hashes') where
  build t := by
    rw [traverseAndBuild, hparent, mul_comm pos 2, calcTreeWidth_eq]
    dsimp only
    rw [if_neg (by decide), if_pos hreal, hleft.build, hright.build]
    simp [pushBit]
  extract t st restBits restHashes hn hbits hhashes := by
    rw [append_assoc] at hhashes
    have hchild : t.vBits.drop (st.nBitsUsed + 1) = bits ++ (bits' ++ restBits) := by
      rw [← append_assoc]
      exact drop_add_of_drop (a := [true]) hbits
    rw [traverseAndExtract, getElem?_of_drop hbits, mul_comm pos 2, calcTreeWidth_eq, hn]
    dsimp only
    rw [if_pos hreal, hleft.extract t { st with nBitsUsed := st.nBitsUsed + 1 } _ _ hn hchild hhashes]
    rw [hright.extract t _ _ _ hn (drop_add_of_drop hchild) (drop_add_of_drop hhashes)]
    rw [combine, decide_eq_false hdistinct, matched_succ, treeNode, if_pos hreal]
    simp [ExtractState.after, add_assoc, add_comm, add_left_comm]
  bits_lt := by
    have hbits := hleft.bits_lt
    have hbits' := hright.bits_lt
    rw [length_cons, length_append, pow_succ]
    omega
  hashes_le_bits := by
    have hle := hleft.hashes_le_bits
    have hle' := hright.hashes_le_bits
    rw [length_cons, length_append, length_append]
    omega
  hashes_le_leaves := by
    rw [leavesBelow_succ, length_append, length_append]
    exact Nat.add_le_add hleft.hashes_le_leaves hright.hashes_le_leaves

lemma flattened_single {height pos : ℕ} {bits : List Bool} {hashes : List Uint256}
    (hparent : parentOfMatch vTxid vMatch (height + 1) pos = true)
    (hlast : ¬ 2 * pos + 1 < treeWidth vTxid.length height)
    (hleft : Flattened sha256 vTxid vMatch height (2 * pos) bits hashes) :
    Flattened sha256 vTxid vMatch (height + 1) pos (true :: bits) hashes where
  build t := by
    rw [traverseAndBuild, hparent, mul_comm pos 2, calcTreeWidth_eq]
    dsimp only
    rw [if_neg (by decide), if_neg hlast, hleft.build]
    simp [pushBit]
  extract t st restBits restHashes hn hbits hhashes := by
    have hchild : t.vBits.drop (st.nBitsUsed + 1) = bits ++ restBits :=
      drop_add_of_drop (a := [true]) hbits
    have hnone : matched vTxid vMatch height (2 * pos + 1) = [] := by
      rw [matched, leavesBelow_of_width_le _ (not_lt.mp hlast), filter_nil]
    rw [traverseAndExtract, getElem?_of_drop hbits, mul_comm pos 2, calcTreeWidth_eq, hn]
    dsimp only
    rw [if_neg hlast, hleft.extract t { st with nBitsUsed := st.nBitsUsed + 1 } _ _ hn hchild hhashes]
    rw [matched_succ, hnone, append_nil, treeNode, if_neg hlast]
    simp [ExtractState.after, add_comm, add_left_comm]
  bits_lt := by
    have hbits := hleft.bits_lt
    rw [pow_succ] at hbits
    rw [length_cons, pow_succ, pow_succ]
    omega
  hashes_le_bits := by
    have hle := hleft.hashes_le_bits
    rw [length_cons]
    omega
  hashes_le_leaves := by
    rw [leavesBelow_succ, leavesBelow_of_width_le _ (not_lt.mp hlast), append_nil]
    exact hleft.hashes_le_leaves

lemma exists_flattened (vMatch : List Bool)
    (hinj : Set.InjOn (Function.uncurry (merklePair sha256))
      (hashedPairs (merklePair sha256) (leafAt vTxid) vTxid.length))
    (hnodup : vTxid.Nodup) {height pos : ℕ} (hheight : height ≤ treeHeight vTxid.length)
    (hpos : pos < treeWidth vTxid.length height) :
    ∃ bits hashes, Flattened sha256 vTxid vMatch height pos bits hashes := by
  have hleaf : Set.InjOn (leafAt vTxid) (Set.Iio vTxid.length) := by
    intro i hi j hj heq
    rw [Set.mem_Iio] at hi hj
    have hget : vTxid[i] = vTxid[j] := by simpa [leafAt, hi, hj] using heq
    exact (List.Nodup.getElem_inj_iff hnodup).mp hget
  induction height generalizing pos with
  | zero => exact ⟨_, _, flattened_stop hpos (Or.inl rfl)⟩
  | succ height ih =>
    cases hparent : parentOfMatch vTxid vMatch (height + 1) pos with
    | false => exact ⟨_, _, flattened_stop hpos (Or.inr hparent)⟩
    | true =>
      have hchild : 2 * pos < treeWidth vTxid.length height := by
        rw [treeWidth] at hpos
        omega
      obtain ⟨bits, hashes, hleft⟩ := ih (by omega) hchild
      by_cases hreal : 2 * pos + 1 < treeWidth vTxid.length height
      · obtain ⟨bits', hashes', hright⟩ := ih (by omega) hreal
        refine ⟨_, _, flattened_pair hparent hreal (fun heq => ?_) hleft hright⟩
        exact not_equalSiblings hinj hleaf (equalSiblings_of_siblings hinj (by omega) hreal heq.symm)
      · exact ⟨_, _, flattened_single hparent hreal hleft⟩

def matchedPositions (vTxid : List Uint256) (vMatch : List Bool) : List ℕ :=
  (List.range vTxid.length).filter (fun p => vMatch.getD p false)

lemma extractMatches_build (hne : vTxid ≠ [])
    (hlimit : vTxid.length ≤ MAX_BLOCK_WEIGHT / MIN_TRANSACTION_WEIGHT) (hnodup : vTxid.Nodup)
    (hinj : Set.InjOn (Function.uncurry (merklePair sha256))
      (hashedPairs (merklePair sha256) (leafAt vTxid) vTxid.length)) (rest : Bytes) :
    ∃ t, unserialize ((build sha256 vTxid vMatch).serialize ++ rest) = .ok (t, rest) ∧
      extractMatches sha256 t [] = ⟨(computeMerkleRoot sha256 vTxid).1,
        (matchedPositions vTxid vMatch).map (leafAt vTxid), matchedPositions vTxid vMatch, false⟩ := by
  have hn : 0 < vTxid.length := length_pos_iff.mpr hne
  have hsmall : vTxid.length ≤ 16666 := hlimit
  have hnum : (UInt32.ofNat vTxid.length).toNat = vTxid.length := by
    rw [UInt32.toNat_ofNat']
    exact mod_eq_of_lt (by omega)
  have hroot : 0 < treeWidth vTxid.length (treeHeight vTxid.length) := treeWidth_pos hn _
  obtain ⟨bits, hashes, hflat⟩ := exists_flattened vMatch hinj hnodup le_rfl hroot
  have hhashes : hashes.length ≤ vTxid.length := by
    have hle := hflat.hashes_le_leaves
    rwa [leavesBelow_root, length_range] at hle
  have hheight : treeHeight vTxid.length ≤ 15 := clog_le_of_le_pow (by omega)
  have hbits : bits.length < 65536 := by
    refine hflat.bits_lt.trans_le ?_
    exact Nat.pow_le_pow_right two_pos (Nat.succ_le_succ hheight)
  have hbuild : build sha256 vTxid vMatch = ⟨UInt32.ofNat vTxid.length, bits, hashes, false⟩ := by
    rw [build, calcHeight_eq hn, hflat.build]
    rfl
  have hmax : 65536 ≤ MAX_SIZE := by decide
  have hreads := reads_partialMerkleTree (t := build sha256 vTxid vMatch)
    (by rw [hbuild]; dsimp only; omega) (by rw [hbuild]; dsimp only; omega)
  refine ⟨_, hreads rest, ?_⟩
  rw [hbuild]
  dsimp only
  generalize hpad : (bits.length + 7) / 8 * 8 - bits.length = pad
  have hextract := hflat.extract
    ⟨UInt32.ofNat vTxid.length, bits ++ List.replicate pad false, hashes, false⟩ ⟨0, 0, [], [], false⟩
    (List.replicate pad false) [] hnum rfl (append_nil hashes).symm
  have hfewer := hflat.hashes_le_bits
  have hpadded : (bits.length + 7) / 8 = (bits.length + pad + 7) / 8 := by omega
  rw [extractMatches]
  dsimp only
  rw [hnum, if_neg, extractRoot, calcHeight_eq (by rwa [hnum])]
  · dsimp only
    rw [hnum, hextract]
    have hmatched : matched vTxid vMatch (treeHeight vTxid.length) 0 = matchedPositions vTxid vMatch := by
      rw [matched, leavesBelow_root]
      rfl
    have hvalue := (computeMerkleRoot_spec sha256 hne (by omega)).1
    simp [ExtractState.after, hmatched, hvalue, treeRoot, hpadded]
  · rw [length_append]
    rintro (hzero | hmany | hmore | hfew)
    · omega
    · exact absurd hlimit (not_le.mpr hmany)
    · omega
    · omega

end Completeness

section Soundness

variable (sha256 : Bytes → Uint256) (t : CPartialMerkleTree)

/-- The pairs that the extraction hashes. -/
def extractedPairs : ℕ → ℕ → ExtractState → List (Uint256 × Uint256)
  | 0, _, _ => []
  | height + 1, pos, st =>
    match t.vBits[st.nBitsUsed]? with
    | some true =>
      let st := { st with nBitsUsed := st.nBitsUsed + 1 }
      let left := traverseAndExtract sha256 t height (pos * 2) st
      if pos * 2 + 1 < calcTreeWidth t.nTransactions.toNat height then
        let right := traverseAndExtract sha256 t height (pos * 2 + 1) left.2
        (left.1, right.1) ::
          (extractedPairs height (pos * 2) st ++ extractedPairs height (pos * 2 + 1) left.2)
      else (left.1, left.1) :: extractedPairs height (pos * 2) st
    | _ => []

def extractRootPairs : List (Uint256 × Uint256) :=
  extractedPairs sha256 t (calcHeight t.nTransactions.toNat) 0 ⟨0, 0, [], [], t.fBad⟩

variable {sha256 t} {vTxid : List Uint256}

/-- Leaves below the node are appended in order. -/
def AddsMatches (vTxid : List Uint256) (height pos : ℕ) (st st' : ExtractState) : Prop :=
  ∃ positions, positions.Sublist (leavesBelow vTxid.length height pos) ∧
    st'.vMatch = st.vMatch ++ positions.map (leafAt vTxid) ∧ st'.vnIndex = st.vnIndex ++ positions

lemma addsMatches_nothing {height pos : ℕ} {st st' : ExtractState} (hmatch : st'.vMatch = st.vMatch)
    (hindex : st'.vnIndex = st.vnIndex) : AddsMatches vTxid height pos st st' :=
  ⟨[], nil_sublist _, by simp [hmatch], by simp [hindex]⟩

lemma takeHash_false {height pos : ℕ} (st : ExtractState) :
    AddsMatches vTxid height pos st (takeHash t false pos st).2 := by
  unfold takeHash
  split
  · exact addsMatches_nothing rfl rfl
  · exact addsMatches_nothing rfl rfl

lemma takeHash_leaf {pos : ℕ} (hpos : pos < vTxid.length) (fMatched : Bool) (st : ExtractState)
    (hleaf : (takeHash t fMatched pos st).1 = leafAt vTxid pos) :
    AddsMatches vTxid 0 pos st (takeHash t fMatched pos st).2 := by
  cases fMatched with
  | false => exact takeHash_false st
  | true =>
    have hbelow : leavesBelow vTxid.length 0 pos = [pos] := by simpa [leavesBelow] using hpos
    unfold takeHash at hleaf ⊢
    split at hleaf
    · exact addsMatches_nothing rfl rfl
    · rename_i hash hget
      refine ⟨[pos], hbelow ▸ List.Sublist.refl _, ?_, rfl⟩
      dsimp only at hleaf
      simp [hleaf]

lemma traverseAndExtract_sound {S : Set (Uint256 × Uint256)}
    (hinj : Set.InjOn (Function.uncurry (merklePair sha256)) S)
    (hhashed : hashedPairs (merklePair sha256) (leafAt vTxid) vTxid.length ⊆ S)
    (hn : t.nTransactions.toNat = vTxid.length) {height pos : ℕ} {st : ExtractState}
    (hextracted : ∀ p ∈ extractedPairs sha256 t height pos st, p ∈ S)
    (hheight : height ≤ treeHeight vTxid.length) (hpos : pos < treeWidth vTxid.length height)
    (hnode : (traverseAndExtract sha256 t height pos st).1 =
      treeNode (merklePair sha256) (leafAt vTxid) vTxid.length height pos) :
    AddsMatches vTxid height pos st (traverseAndExtract sha256 t height pos st).2 := by
  induction height generalizing pos st with
  | zero =>
    unfold traverseAndExtract at hnode ⊢
    cases hbit : t.vBits[st.nBitsUsed]? with
    | none => exact addsMatches_nothing rfl rfl
    | some fParentOfMatch =>
      rw [hbit] at hnode
      exact takeHash_leaf hpos fParentOfMatch { st with nBitsUsed := st.nBitsUsed + 1 } hnode
  | succ height ih =>
    have hchild : 2 * pos < treeWidth vTxid.length height := by
      rw [treeWidth] at hpos
      omega
    have hpair : treePair (merklePair sha256) (leafAt vTxid) vTxid.length height pos ∈ S :=
      hhashed ⟨height, pos, hheight, hpos, rfl⟩
    rw [traverseAndExtract] at hnode ⊢
    rw [extractedPairs] at hextracted
    cases hbit : t.vBits[st.nBitsUsed]? with
    | none => exact addsMatches_nothing rfl rfl
    | some fParentOfMatch =>
      cases fParentOfMatch with
      | false => exact takeHash_false { st with nBitsUsed := st.nBitsUsed + 1 }
      | true =>
        rw [hbit] at hnode hextracted
        rw [mul_comm pos 2, calcTreeWidth_eq, hn] at hnode hextracted ⊢
        dsimp only at hnode hextracted ⊢
        generalize hstart : ({ st with nBitsUsed := st.nBitsUsed + 1 } : ExtractState) = start
          at hnode hextracted ⊢
        have hmatch : start.vMatch = st.vMatch := by rw [← hstart]
        have hindex : start.vnIndex = st.vnIndex := by rw [← hstart]
        by_cases hreal : 2 * pos + 1 < treeWidth vTxid.length height
        · rw [if_pos hreal] at hnode hextracted ⊢
          rw [treeNode_succ] at hnode
          have hsame := hinj (hextracted _ mem_cons_self) hpair hnode
          rw [treePair, if_pos hreal, Prod.mk.injEq] at hsame
          obtain ⟨left, hleftBelow, hleftMatch, hleftIndex⟩ := ih
            (fun p hp => hextracted p (mem_cons_of_mem _ (mem_append_left _ hp)))
            (by omega) hchild hsame.1
          obtain ⟨right, hrightBelow, hrightMatch, hrightIndex⟩ := ih
            (fun p hp => hextracted p (mem_cons_of_mem _ (mem_append_right _ hp)))
            (by omega) hreal hsame.2
          refine ⟨left ++ right, ?_, ?_, ?_⟩
          · rw [leavesBelow_succ]
            exact hleftBelow.append hrightBelow
          · rw [combine, hrightMatch, hleftMatch, hmatch, map_append, append_assoc]
          · rw [combine, hrightIndex, hleftIndex, hindex, append_assoc]
        · rw [if_neg hreal] at hnode hextracted ⊢
          rw [treeNode_succ] at hnode
          have hsame := hinj (hextracted _ mem_cons_self) hpair hnode
          obtain ⟨left, hleftBelow, hleftMatch, hleftIndex⟩ := ih
            (fun p hp => hextracted p (mem_cons_of_mem _ hp)) (by omega) hchild
            (congrArg Prod.fst hsame)
          refine ⟨left, ?_, by rw [hleftMatch, hmatch], by rw [hleftIndex, hindex]⟩
          rw [leavesBelow_succ, leavesBelow_of_width_le _ (not_lt.mp hreal), append_nil]
          exact hleftBelow

lemma extractMatches_eq_of_root_ne (hroot : (extractMatches sha256 t []).root ≠ BaseBlob.null 32) :
    0 < t.nTransactions.toNat ∧
      extractMatches sha256 t [] = ⟨(extractRoot sha256 t []).1, (extractRoot sha256 t []).2.vMatch,
        (extractRoot sha256 t []).2.vnIndex, (extractRoot sha256 t []).2.fBad⟩ := by
  unfold extractMatches at hroot ⊢
  dsimp only at hroot ⊢
  split_ifs at hroot ⊢ with hrange hfails
  · exact absurd rfl hroot
  · exact absurd rfl hroot
  · exact ⟨pos_of_ne_zero (fun h => hrange (Or.inl h)), rfl⟩

lemma extractMatches_sound (hn : t.nTransactions.toNat = vTxid.length)
    (hinj : Set.InjOn (Function.uncurry (merklePair sha256))
      (hashedPairs (merklePair sha256) (leafAt vTxid) vTxid.length ∪
        {p | p ∈ extractRootPairs sha256 t}))
    (hnull : (extractMatches sha256 t []).root ≠ BaseBlob.null 32)
    (hroot : (extractMatches sha256 t []).root = (computeMerkleRoot sha256 vTxid).1) :
    (extractMatches sha256 t []).vnIndex.Pairwise (· < ·) ∧
      List.Forall₂ (fun id p => vTxid[p]? = some id) (extractMatches sha256 t []).vMatch
        (extractMatches sha256 t []).vnIndex := by
  obtain ⟨hpos, heq⟩ := extractMatches_eq_of_root_ne hnull
  rw [heq] at hroot ⊢
  rw [hn] at hpos
  have hlimit : vTxid.length ≤ 2 ^ 32 := hn ▸ t.nTransactions.toNat_lt.le
  have hne : vTxid ≠ [] := length_pos_iff.mp hpos
  have hheight : calcHeight t.nTransactions.toNat = treeHeight vTxid.length := by
    rw [hn, calcHeight_eq hpos]
  rw [(computeMerkleRoot_spec sha256 hne hlimit).1] at hroot
  obtain ⟨positions, hsub, hmatch, hindex⟩ :=
    traverseAndExtract_sound hinj Set.subset_union_left hn (fun p hp => Or.inr hp) hheight.le
      (hheight ▸ treeWidth_pos hpos _) (hroot.trans (by rw [hheight]; rfl))
  rw [hheight, leavesBelow_root] at hsub
  dsimp only
  unfold extractRoot
  rw [hmatch, hindex, nil_append, nil_append]
  refine ⟨pairwise_lt_range.sublist hsub, ?_⟩
  rw [forall₂_map_left_iff, forall₂_same]
  intro p hp
  have hlt : p < vTxid.length := mem_range.mp (hsub.subset hp)
  simp [leafAt, hlt]

end Soundness

/-- What was built from distinct ids and written is read back with exactly the matched ids. Conversely,
bits and hashes that lead to the root of a list have matched ids of this list at their positions. The
hash need not collide on what the list and the extraction hash. -/
theorem extractMatches_complete_sound (sha256 : Bytes → Uint256) (vTxid : List Uint256) :
    (∀ vMatch rest, vTxid ≠ [] → vTxid.length ≤ MAX_BLOCK_WEIGHT / MIN_TRANSACTION_WEIGHT →
      vTxid.Nodup →
      Set.InjOn (Function.uncurry (merklePair sha256))
        (hashedPairs (merklePair sha256) (leafAt vTxid) vTxid.length) →
      ∃ t, unserialize ((build sha256 vTxid vMatch).serialize ++ rest) = .ok (t, rest) ∧
        extractMatches sha256 t [] = ⟨(computeMerkleRoot sha256 vTxid).1,
          (matchedPositions vTxid vMatch).map (leafAt vTxid), matchedPositions vTxid vMatch, false⟩) ∧
    (∀ t : CPartialMerkleTree, t.nTransactions.toNat = vTxid.length →
      Set.InjOn (Function.uncurry (merklePair sha256))
        (hashedPairs (merklePair sha256) (leafAt vTxid) vTxid.length ∪
          {p | p ∈ extractRootPairs sha256 t}) →
      (extractMatches sha256 t []).root ≠ BaseBlob.null 32 →
      (extractMatches sha256 t []).root = (computeMerkleRoot sha256 vTxid).1 →
      (extractMatches sha256 t []).vnIndex.Pairwise (· < ·) ∧
        List.Forall₂ (fun id p => vTxid[p]? = some id) (extractMatches sha256 t []).vMatch
          (extractMatches sha256 t []).vnIndex) :=
  ⟨fun _ rest hne hlimit hnodup hinj => extractMatches_build hne hlimit hnodup hinj rest,
    fun _ hn hinj hnull hroot => extractMatches_sound hn hinj hnull hroot⟩

lemma extractRootPairs_threeLeaves :
    ∀ p ∈ extractRootPairs cSHA256 (build cSHA256 threeLeaves [false, true, true]), p ∈ threePairs := by
  decide +kernel

lemma mem_hashedPairs_of_threePairs : ∀ p ∈ threePairs,
    p ∈ hashedPairs (merklePair cSHA256) (leafAt threeLeaves) threeLeaves.length := by
  intro p hp
  simp only [threePairs, mem_cons, not_mem_nil, or_false] at hp
  obtain rfl | rfl | rfl := hp
  · exact ⟨0, 0, by decide, by decide, rfl⟩
  · exact ⟨0, 1, by decide, by decide, rfl⟩
  · exact ⟨1, 0, by decide, by decide, rfl⟩

theorem extractMatches_complete_sound_threeLeaves :
    (∃ t, unserialize ((build cSHA256 threeLeaves [false, true, true]).serialize ++ []) = .ok (t, []) ∧
      extractMatches cSHA256 t [] = ⟨(computeMerkleRoot cSHA256 threeLeaves).1,
        [BaseBlob.ofNat 32 2, BaseBlob.ofNat 32 3], [1, 2], false⟩) ∧
    List.Forall₂ (fun id p => threeLeaves[p]? = some id)
      (extractMatches cSHA256 (build cSHA256 threeLeaves [false, true, true]) []).vMatch
      (extractMatches cSHA256 (build cSHA256 threeLeaves [false, true, true]) []).vnIndex :=
  ⟨(extractMatches_complete_sound cSHA256 threeLeaves).1 [false, true, true] [] (by decide) (by decide)
      (by decide) injOn_threeLeaves,
    ((extractMatches_complete_sound cSHA256 threeLeaves).2 (build cSHA256 threeLeaves [false, true, true])
      (by decide) (injOn_threeLeaves.mono (Set.union_subset subset_rfl
        (fun p hp => mem_hashedPairs_of_threePairs p (extractRootPairs_threeLeaves p hp))))
      (by decide +kernel) (by decide +kernel)).2⟩

end CPartialMerkleTree

end MutableBitcoin
