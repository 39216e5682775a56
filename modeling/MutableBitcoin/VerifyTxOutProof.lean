import MutableBitcoin.BlockIndex
import MutableBitcoin.CompactMessage
import MutableBitcoin.PartialMerkleMatches

/-!
# Proofs that a transaction is in a block

`verifytxoutproof` of `rpc/rawtransaction.cpp`. The proof says itself how many transactions the
block has.
-/

namespace MutableBitcoin
open Lib CPartialMerkleTree List

/-- A header and a partial tree. -/
structure CMerkleBlock where
  header : CBlockHeader
  txn : CPartialMerkleTree

def CMerkleBlock.serialize (mb : CMerkleBlock) : Bytes := mb.header.serialize ++ mb.txn.serialize

def CMerkleBlock.unserialize : Read CMerkleBlock := do
  let header ← readHeader
  let txn ← CPartialMerkleTree.unserialize
  return ⟨header, txn⟩

/-- The errors of `verifytxoutproof`. -/
inductive ProofFailure where
  | stream (failure : StreamFailure)
  /-- `RPC_INVALID_ADDRESS_OR_KEY`. -/
  | blockNotFound

/-- The proof as bytes, and the ids as the hexadecimal numbers of the result. -/
def verifytxoutproof (sha256 : Bytes → Uint256) (s : ChainState) (proof : Bytes) : Except ProofFailure (List Str) :=
  match CMerkleBlock.unserialize proof with
  | .error failure => .error (.stream failure)
  | .ok (merkleBlock, _) =>
    let r := extractMatches sha256 merkleBlock.txn []
    if r.root ≠ merkleBlock.header.hashMerkleRoot then .ok []
    else
      let hash := merkleBlock.header.getHash sha256
      if hash ∉ s.mapBlockIndex ∨ ¬s.contains hash then .error .blockNotFound
      else .ok (r.vMatch.map BaseBlob.getHex)

namespace CPartialMerkleTree

section Flags

variable (t : CPartialMerkleTree)

def markedLeaves : ℕ → ℕ → ℕ → ℕ × ℕ
  | 0, _, nBitsUsed => (nBitsUsed + 1, if t.vBits[nBitsUsed]? = some true then 1 else 0)
  | height + 1, pos, nBitsUsed =>
    if t.vBits[nBitsUsed]? = some true then
      let left := markedLeaves height (pos * 2) (nBitsUsed + 1)
      if pos * 2 + 1 < calcTreeWidth t.nTransactions.toNat height then
        let right := markedLeaves height (pos * 2 + 1) left.1
        (right.1, left.2 + right.2)
      else left
    else (nBitsUsed + 1, 0)

/-- The flag bits mark no leaf. -/
def marksNoLeaf : Prop := (t.markedLeaves (calcHeight t.nTransactions.toNat) 0 0).2 = 0

variable {t} (sha256 : Bytes → Uint256)

lemma takeHash_good {fMatched : Bool} {pos : ℕ} {st : ExtractState} (h : (takeHash t fMatched pos st).2.fBad = false) :
    st.fBad = false ∧ (takeHash t fMatched pos st).2.nBitsUsed = st.nBitsUsed ∧
      (takeHash t fMatched pos st).2.vMatch.length = st.vMatch.length + (if fMatched then 1 else 0) := by
  unfold takeHash at h ⊢
  cases hget : t.vHash[st.nHashUsed]? with
  | none =>
    rw [hget] at h
    cases h
  | some hash =>
    rw [hget] at h
    cases fMatched with
    | false => exact ⟨h, rfl, rfl⟩
    | true => exact ⟨h, rfl, length_append⟩

lemma traverseAndExtract_good {height pos : ℕ} {st : ExtractState}
    (h : (traverseAndExtract sha256 t height pos st).2.fBad = false) :
    st.fBad = false ∧
      (traverseAndExtract sha256 t height pos st).2.nBitsUsed = (t.markedLeaves height pos st.nBitsUsed).1 ∧
      (traverseAndExtract sha256 t height pos st).2.vMatch.length =
        st.vMatch.length + (t.markedLeaves height pos st.nBitsUsed).2 := by
  induction height generalizing pos st with
  | zero =>
    rw [traverseAndExtract] at h ⊢
    rw [markedLeaves]
    cases hbit : t.vBits[st.nBitsUsed]? with
    | none =>
      rw [hbit] at h
      cases h
    | some fParentOfMatch =>
      rw [hbit] at h
      obtain ⟨hgood, hbits, hlen⟩ := takeHash_good h
      refine ⟨hgood, hbits, hlen.trans ?_⟩
      cases fParentOfMatch <;> rfl
  | succ height ih =>
    rw [traverseAndExtract] at h ⊢
    rw [markedLeaves]
    cases hbit : t.vBits[st.nBitsUsed]? with
    | none =>
      rw [hbit] at h
      cases h
    | some fParentOfMatch =>
      rw [hbit] at h
      cases fParentOfMatch with
      | false => exact takeHash_good h
      | true =>
        dsimp only at h ⊢
        rw [if_pos rfl]
        by_cases hright : pos * 2 + 1 < calcTreeWidth t.nTransactions.toNat height
        · rw [if_pos hright] at h ⊢
          rw [if_pos hright]
          obtain ⟨hgood, -⟩ := Bool.or_eq_false_iff.mp h
          obtain ⟨hleft, hbits, hlen⟩ := ih hgood
          obtain ⟨hst, hbits', hlen'⟩ := ih hleft
          refine ⟨hst, ?_, ?_⟩
          · rw [combine, hbits, hbits']
          · rw [combine, hlen, hlen', hbits', Nat.add_assoc]
        · rw [if_neg hright] at h ⊢
          rw [if_neg hright]
          exact ih h

end Flags

section Depth

lemma extractMatches_good {sha256 : Bytes → Uint256} {t : CPartialMerkleTree}
    (hnull : (extractMatches sha256 t []).root ≠ BaseBlob.null 32) : (extractRoot sha256 t []).2.fBad = false := by
  unfold extractMatches at hnull
  dsimp only at hnull
  split_ifs at hnull with hrange hfails
  · exact absurd rfl hnull
  · exact absurd rfl hnull
  · rw [Bool.not_eq_true, Bool.or_eq_false_iff, Bool.or_eq_false_iff] at hfails
    exact hfails.1.1

variable {sha256 : Bytes → Uint256} {t : CPartialMerkleTree} {vTxid : List Uint256} {S : Set (Uint256 × Uint256)}

lemma takeHash_false_vMatch (pos : ℕ) (st : ExtractState) : (takeHash t false pos st).2.vMatch = st.vMatch := by
  unfold takeHash
  cases t.vHash[st.nHashUsed]? <;> rfl

lemma nodes_of_pair (hinj : Set.InjOn (Function.uncurry (merklePair sha256)) S)
    (hhashed : hashedPairs (merklePair sha256) (leafAt vTxid) vTxid.length ⊆ S) {i q : ℕ} {left right : Uint256}
    (hpair : (left, right) ∈ S) (hi : i < treeHeight vTxid.length) (hq : q < treeWidth vTxid.length (i + 1))
    (hnode : merklePair sha256 left right = treeNode (merklePair sha256) (leafAt vTxid) vTxid.length (i + 1) q) :
    (∃ j < treeWidth vTxid.length i, left = treeNode (merklePair sha256) (leafAt vTxid) vTxid.length i j) ∧
      ∃ j < treeWidth vTxid.length i, right = treeNode (merklePair sha256) (leafAt vTxid) vTxid.length i j := by
  have hleft : 2 * q < treeWidth vTxid.length i := by
    rw [treeWidth] at hq
    omega
  rw [treeNode_succ] at hnode
  have hsame := hinj hpair (hhashed ⟨i, q, hi, hq, rfl⟩) hnode
  rw [treePair, Prod.mk.injEq] at hsame
  refine ⟨⟨2 * q, hleft, hsame.1⟩, ?_⟩
  split_ifs at hsame with hreal
  · exact ⟨2 * q + 1, hreal, hsame.2⟩
  · exact ⟨2 * q, hleft, hsame.2⟩

variable (sha256 vTxid) in
/-- What is matched in between are nodes of the block, `d` levels above its leaves. -/
def AddsNodes (d : ℕ) (st st' : ExtractState) : Prop :=
  ∃ l, st'.vMatch = st.vMatch ++ l ∧
    ∀ m ∈ l, ∃ j < treeWidth vTxid.length d, m = treeNode (merklePair sha256) (leafAt vTxid) vTxid.length d j

lemma addsNodes_nothing {d : ℕ} {st st' : ExtractState} (h : st'.vMatch = st.vMatch) : AddsNodes sha256 vTxid d st st' :=
  ⟨[], by rw [h, append_nil], fun m hm => absurd hm not_mem_nil⟩

lemma AddsNodes.trans {d : ℕ} {st st' st'' : ExtractState} (h : AddsNodes sha256 vTxid d st st')
    (h' : AddsNodes sha256 vTxid d st' st'') : AddsNodes sha256 vTxid d st st'' := by
  obtain ⟨l, hl, hall⟩ := h
  obtain ⟨l', hl', hall'⟩ := h'
  refine ⟨l ++ l', by rw [hl', hl, append_assoc], ?_⟩
  rw [forall_mem_append]
  exact ⟨hall, hall'⟩

lemma matches_nodes (hinj : Set.InjOn (Function.uncurry (merklePair sha256)) S)
    (hhashed : hashedPairs (merklePair sha256) (leafAt vTxid) vTxid.length ⊆ S) {d height pos q : ℕ} {st : ExtractState}
    (hextracted : ∀ p ∈ extractedPairs sha256 t height pos st, p ∈ S)
    (hheight : height + d ≤ treeHeight vTxid.length) (hq : q < treeWidth vTxid.length (height + d))
    (hnode : (traverseAndExtract sha256 t height pos st).1 =
      treeNode (merklePair sha256) (leafAt vTxid) vTxid.length (height + d) q) :
    AddsNodes sha256 vTxid d st (traverseAndExtract sha256 t height pos st).2 := by
  induction height generalizing pos q st with
  | zero =>
    rw [traverseAndExtract] at hnode ⊢
    cases hbit : t.vBits[st.nBitsUsed]? with
    | none => exact addsNodes_nothing rfl
    | some fParentOfMatch =>
      rw [hbit] at hnode
      dsimp only at hnode ⊢
      cases fParentOfMatch with
      | false => exact addsNodes_nothing (takeHash_false_vMatch pos _)
      | true =>
        unfold takeHash at hnode ⊢
        cases hget : t.vHash[st.nHashUsed]? with
        | none => exact addsNodes_nothing rfl
        | some hash =>
          rw [hget] at hnode
          rw [zero_add] at hq hnode
          refine ⟨[hash], rfl, ?_⟩
          rw [forall_mem_singleton]
          exact ⟨q, hq, hnode⟩
  | succ height ih =>
    rw [traverseAndExtract] at hnode ⊢
    rw [extractedPairs] at hextracted
    cases hbit : t.vBits[st.nBitsUsed]? with
    | none => exact addsNodes_nothing rfl
    | some fParentOfMatch =>
      cases fParentOfMatch with
      | false => exact addsNodes_nothing (takeHash_false_vMatch pos _)
      | true =>
        rw [hbit] at hnode hextracted
        rw [Nat.add_right_comm] at hnode hq hheight
        dsimp only at hnode hextracted ⊢
        by_cases hreal : pos * 2 + 1 < calcTreeWidth t.nTransactions.toNat height
        · rw [if_pos hreal] at hnode hextracted ⊢
          obtain ⟨⟨j, hj, hleft⟩, j', hj', hright⟩ := nodes_of_pair hinj hhashed (hextracted _ mem_cons_self)
            (by omega) hq hnode
          have hbelow := ih (fun p hp => hextracted p (mem_cons_of_mem _ (mem_append_left _ hp)))
            (by omega) hj hleft
          exact hbelow.trans (ih (fun p hp => hextracted p (mem_cons_of_mem _ (mem_append_right _ hp)))
            (by omega) hj' hright)
        · rw [if_neg hreal] at hnode hextracted ⊢
          obtain ⟨⟨j, hj, hleft⟩, -⟩ := nodes_of_pair hinj hhashed (hextracted _ mem_cons_self) (by omega) hq hnode
          exact ih (fun p hp => hextracted p (mem_cons_of_mem _ hp)) (by omega) hj hleft

lemma matches_nothing (hinj : Set.InjOn (Function.uncurry (merklePair sha256)) S)
    (hhashed : hashedPairs (merklePair sha256) (leafAt vTxid) vTxid.length ⊆ S)
    (hids : ∀ p ∈ S, merklePair sha256 p.1 p.2 ∉ vTxid) {d height pos q : ℕ} {st : ExtractState}
    (hextracted : ∀ p ∈ extractedPairs sha256 t (height + d + 1) pos st, p ∈ S)
    (hheight : height ≤ treeHeight vTxid.length) (hq : q < treeWidth vTxid.length height)
    (hnode : (traverseAndExtract sha256 t (height + d + 1) pos st).1 =
      treeNode (merklePair sha256) (leafAt vTxid) vTxid.length height q) :
    (traverseAndExtract sha256 t (height + d + 1) pos st).2.vMatch = st.vMatch := by
  induction height generalizing pos q st with
  | zero =>
    have hid : treeNode (merklePair sha256) (leafAt vTxid) vTxid.length 0 q ∈ vTxid := by
      have hq : q < vTxid.length := hq
      simp [treeNode, leafAt, hq]
    rw [← hnode] at hid
    rw [traverseAndExtract] at hid ⊢
    rw [extractedPairs] at hextracted
    cases hbit : t.vBits[st.nBitsUsed]? with
    | none => rfl
    | some fParentOfMatch =>
      cases fParentOfMatch with
      | false => exact takeHash_false_vMatch pos _
      | true =>
        rw [hbit] at hid hextracted
        dsimp only at hid hextracted
        by_cases hreal : pos * 2 + 1 < calcTreeWidth t.nTransactions.toNat (0 + d)
        · rw [if_pos hreal] at hid hextracted
          exact absurd hid (hids _ (hextracted _ mem_cons_self))
        · rw [if_neg hreal] at hid hextracted
          exact absurd hid (hids _ (hextracted _ mem_cons_self))
  | succ height ih =>
    rw [Nat.add_right_comm height 1 d] at hnode hextracted ⊢
    rw [traverseAndExtract] at hnode ⊢
    rw [extractedPairs] at hextracted
    cases hbit : t.vBits[st.nBitsUsed]? with
    | none => rfl
    | some fParentOfMatch =>
      cases fParentOfMatch with
      | false => exact takeHash_false_vMatch pos _
      | true =>
        rw [hbit] at hnode hextracted
        dsimp only at hnode hextracted ⊢
        by_cases hreal : pos * 2 + 1 < calcTreeWidth t.nTransactions.toNat (height + d + 1)
        · rw [if_pos hreal] at hnode hextracted ⊢
          obtain ⟨⟨j, hj, hleft⟩, j', hj', hright⟩ := nodes_of_pair hinj hhashed (hextracted _ mem_cons_self)
            (by omega) hq hnode
          rw [combine, ih (fun p hp => hextracted p (mem_cons_of_mem _ (mem_append_right _ hp))) (by omega) hj' hright,
            ih (fun p hp => hextracted p (mem_cons_of_mem _ (mem_append_left _ hp))) (by omega) hj hleft]
        · rw [if_neg hreal] at hnode hextracted ⊢
          obtain ⟨⟨j, hj, hleft⟩, -⟩ := nodes_of_pair hinj hhashed (hextracted _ mem_cons_self) (by omega) hq hnode
          exact ih (fun p hp => hextracted p (mem_cons_of_mem _ hp)) (by omega) hj hleft

end Depth

section Proof

variable {sha256 : Bytes → Uint256} {t : CPartialMerkleTree} {vTxid : List Uint256}

/-- The pairs that the block and the proof hash. -/
def allHashedPairs (sha256 : Bytes → Uint256) (vTxid : List Uint256) (t : CPartialMerkleTree) :
    Set (Uint256 × Uint256) :=
  hashedPairs (merklePair sha256) (leafAt vTxid) vTxid.length ∪ {p | p ∈ extractRootPairs sha256 t}

/-- No id of the block is the hash of such a pair. -/
def IdsApart (sha256 : Bytes → Uint256) (vTxid : List Uint256) (t : CPartialMerkleTree) : Prop :=
  ∀ p ∈ allHashedPairs sha256 vTxid t, merklePair sha256 p.1 p.2 ∉ vTxid

lemma matches_nil_iff (hnull : (extractMatches sha256 t []).root ≠ BaseBlob.null 32) :
    (extractMatches sha256 t []).vMatch = [] ↔ t.marksNoLeaf := by
  obtain ⟨-, heq⟩ := extractMatches_eq_of_root_ne hnull
  obtain ⟨-, -, hlen⟩ := traverseAndExtract_good sha256 (extractMatches_good hnull)
  rw [heq, marksNoLeaf, ← length_eq_zero_iff]
  exact Eq.congr_left (hlen.trans (Nat.zero_add _))

variable (hne : vTxid ≠ []) (hlimit : vTxid.length ≤ 2 ^ 32)
  (hinj : Set.InjOn (Function.uncurry (merklePair sha256)) (allHashedPairs sha256 vTxid t))
  (hnull : (extractMatches sha256 t []).root ≠ BaseBlob.null 32)
  (hroot : (extractMatches sha256 t []).root = (computeMerkleRoot sha256 vTxid).1)

include hne hlimit hinj hnull hroot

lemma matches_of_height_le {d : ℕ} (hd : calcHeight vTxid.length = calcHeight t.nTransactions.toNat + d) :
    ∀ id ∈ (extractMatches sha256 t []).vMatch,
      ∃ j < treeWidth vTxid.length d, id = treeNode (merklePair sha256) (leafAt vTxid) vTxid.length d j := by
  have hpos := length_pos_iff.mpr hne
  obtain ⟨-, heq⟩ := extractMatches_eq_of_root_ne hnull
  rw [heq, (computeMerkleRoot_spec sha256 hne hlimit).1] at hroot
  rw [calcHeight_eq hpos] at hd
  obtain ⟨l, hl, hnodes⟩ := matches_nodes hinj Set.subset_union_left (fun p hp => Or.inr hp) hd.ge
    (hd ▸ treeWidth_pos hpos (treeHeight vTxid.length)) (hroot.trans (by rw [treeRoot, hd]))
  have hmatch : (extractMatches sha256 t []).vMatch = l := by
    rw [heq]
    exact hl.trans (nil_append l)
  rwa [hmatch]

lemma matches_of_height_lt (hids : IdsApart sha256 vTxid t)
    (hlt : calcHeight vTxid.length < calcHeight t.nTransactions.toNat) : (extractMatches sha256 t []).vMatch = [] := by
  have hpos := length_pos_iff.mpr hne
  obtain ⟨-, heq⟩ := extractMatches_eq_of_root_ne hnull
  rw [heq, (computeMerkleRoot_spec sha256 hne hlimit).1] at hroot
  rw [calcHeight_eq hpos] at hlt
  obtain ⟨d, hd⟩ := Nat.exists_eq_add_of_lt hlt
  have hdeep : ∀ p ∈ extractedPairs sha256 t (treeHeight vTxid.length + d + 1) 0 ⟨0, 0, [], [], t.fBad⟩,
      p ∈ allHashedPairs sha256 vTxid t := by
    rw [← hd]
    exact fun p hp => Or.inr hp
  rw [heq]
  unfold extractRoot at hroot ⊢
  rw [hd] at hroot ⊢
  exact matches_nothing hinj Set.subset_union_left hids hdeep le_rfl (treeWidth_pos hpos _) hroot

lemma matches_ids (h : calcHeight vTxid.length = calcHeight t.nTransactions.toNat ∨ t.marksNoLeaf ∨
      IdsApart sha256 vTxid t ∧ calcHeight vTxid.length < calcHeight t.nTransactions.toNat) :
    ∀ id ∈ (extractMatches sha256 t []).vMatch, id ∈ vTxid := by
  rcases h with heq | hnone | ⟨hids, hlt⟩
  · intro id hid
    obtain ⟨j, hj, rfl⟩ := matches_of_height_le (d := 0) hne hlimit hinj hnull hroot heq id hid
    have hj : j < vTxid.length := hj
    simp [treeNode, leafAt, hj]
  · rw [(matches_nil_iff hnull).mpr hnone]
    exact fun id hid => absurd hid not_mem_nil
  · rw [matches_of_height_lt hne hlimit hinj hnull hroot hids hlt]
    exact fun id hid => absurd hid not_mem_nil

lemma height_of_matches_ids (hids : IdsApart sha256 vTxid t)
    (hall : ∀ id ∈ (extractMatches sha256 t []).vMatch, id ∈ vTxid) :
    calcHeight vTxid.length ≤ calcHeight t.nTransactions.toNat ∨ t.marksNoLeaf := by
  rw [or_iff_not_imp_left, not_le, ← matches_nil_iff hnull]
  intro hlow
  obtain ⟨d, hd⟩ := Nat.exists_eq_add_of_lt hlow
  rw [eq_nil_iff_forall_not_mem]
  intro id hid
  obtain ⟨j, hj, rfl⟩ := matches_of_height_le (d := d + 1) hne hlimit hinj hnull hroot hd id hid
  have hd' : d < treeHeight vTxid.length := by
    rw [← calcHeight_eq (length_pos_iff.mpr hne)]
    omega
  exact hids _ (Or.inl ⟨d, j, hd', hj, rfl⟩) (hall _ hid)

end Proof

end CPartialMerkleTree

section Rpc

variable {sha256 : Bytes → Uint256} {s : ChainState} {vTxid : List Uint256} {header : CBlockHeader}
  {txn : CPartialMerkleTree} {proof rest : Bytes}

lemma getHex_injective : Function.Injective (fun hash : Uint256 => hash.getHex) :=
  Function.LeftInverse.injective BaseBlob.setHex_getHex

lemma verifytxoutproof_accepted (hread : CMerkleBlock.unserialize proof = .ok (⟨header, txn⟩, rest))
    (hroot : (extractMatches sha256 txn []).root = header.hashMerkleRoot)
    (hactive : header.getHash sha256 ∈ s.mapBlockIndex ∧ s.contains (header.getHash sha256) = true) :
    verifytxoutproof sha256 s proof = .ok ((extractMatches sha256 txn []).vMatch.map BaseBlob.getHex) := by
  unfold verifytxoutproof
  rw [hread]
  dsimp only
  rw [if_neg (not_not.mpr hroot), if_neg]
  rw [not_or, not_not, not_not]
  exact hactive

lemma reads_merkleBlock (header : CBlockHeader) {t : CPartialMerkleTree} (hhash : t.vHash.length ≤ MAX_SIZE)
    (hbits : t.vBits.length ≤ MAX_SIZE) (hpadded : t.vBits.length % 8 = 0) (hgood : t.fBad = false) :
    Reads CMerkleBlock.unserialize (CMerkleBlock.serialize ⟨header, t⟩) ⟨header, t⟩ := by
  have htree := reads_partialMerkleTree hhash (show (t.vBits.length + 7) / 8 ≤ MAX_SIZE by omega)
  rw [show (t.vBits.length + 7) / 8 * 8 - t.vBits.length = 0 by omega, replicate_zero, append_nil, ← hgood] at htree
  exact (reads_header header).bind (htree.map _)

lemma exists_not_mem (hlimit : vTxid.length ≤ 2 ^ 32) : ∃ id : Uint256, id ∉ vTxid := by
  by_contra hall
  push Not at hall
  have hinj : Set.InjOn (BaseBlob.ofNat 32) (Finset.range (2 ^ 32 + 1)) := by
    intro a ha b hb heq
    have ha := Finset.mem_range.mp (Finset.mem_coe.mp ha)
    have hb := Finset.mem_range.mp (Finset.mem_coe.mp hb)
    have hvalue := congrArg (fun x : Uint256 => leValue x.data) heq
    have hbound : 2 ^ 32 + 1 ≤ 256 ^ 32 := by norm_num
    dsimp only [BaseBlob.ofNat] at hvalue
    rwa [leValue_leBytes (lt_of_lt_of_le ha hbound), leValue_leBytes (lt_of_lt_of_le hb hbound)] at hvalue
  have hcard := (Finset.card_le_card (s := (Finset.range (2 ^ 32 + 1)).image (BaseBlob.ofNat 32)) (t := vTxid.toFinset)
    (fun id _ => mem_toFinset.mpr (hall id))).trans vTxid.toFinset_card_le
  rw [Finset.card_image_of_injOn hinj, Finset.card_range] at hcard
  omega

def overlongProof (hash : Uint256) : CPartialMerkleTree := ⟨1, true :: List.replicate 15 false, [hash], false⟩

lemma extractMatches_overlongProof (hash : Uint256) :
    extractMatches sha256 (overlongProof hash) [] = ⟨BaseBlob.null 32, [hash], [0], false⟩ := by
  have hroot : extractRoot sha256 (overlongProof hash) [] = (hash, ⟨1, 1, [hash], [0], false⟩) := by
    unfold extractRoot
    rw [show calcHeight (overlongProof hash).nTransactions.toNat = 0 from (by decide : calcHeight 1 = 0)]
    rfl
  unfold extractMatches
  rw [hroot, if_neg]
  · simp [overlongProof]
  · rintro (h | h | h | h)
    · exact absurd h (by decide : ¬(1 : ℕ) = 0)
    · exact absurd h (by decide : ¬MAX_BLOCK_WEIGHT / MIN_TRANSACTION_WEIGHT < 1)
    · exact absurd h (by decide : ¬(1 : ℕ) < 1)
    · exact absurd h (by decide : ¬(16 : ℕ) < 1)

/-- For a block whose root is not null an accepted proof gives only ids of the block if the number of transactions that
it names has a tree as high as that of the block, or a higher one and no id of the block is the hash of a pair, or if
its bits mark no leaf; with a lower tree and a marked leaf it does not. A null root, which is also the answer to a
proof that fails, lets any id pass. -/
theorem verifytxoutproof_exact (hne : vTxid ≠ []) (hlimit : vTxid.length ≤ 2 ^ 32)
    (hblock : header.hashMerkleRoot = (computeMerkleRoot sha256 vTxid).1)
    (hactive : header.getHash sha256 ∈ s.mapBlockIndex ∧ s.contains (header.getHash sha256) = true) :
    (header.hashMerkleRoot ≠ BaseBlob.null 32 → ∀ proof txn rest,
      CMerkleBlock.unserialize proof = .ok (⟨header, txn⟩, rest) →
      (extractMatches sha256 txn []).root = header.hashMerkleRoot →
      Set.InjOn (Function.uncurry (merklePair sha256)) (allHashedPairs sha256 vTxid txn) →
      ((calcHeight vTxid.length = calcHeight txn.nTransactions.toNat ∨ txn.marksNoLeaf ∨
          IdsApart sha256 vTxid txn ∧ calcHeight vTxid.length < calcHeight txn.nTransactions.toNat) →
        ∀ res, verifytxoutproof sha256 s proof = .ok res → ∀ hash ∈ res, ∃ txid ∈ vTxid, hash = txid.getHex) ∧
      (IdsApart sha256 vTxid txn →
        (∀ res, verifytxoutproof sha256 s proof = .ok res → ∀ hash ∈ res, ∃ txid ∈ vTxid, hash = txid.getHex) →
        calcHeight vTxid.length ≤ calcHeight txn.nTransactions.toNat ∨ txn.marksNoLeaf)) ∧
    (header.hashMerkleRoot = BaseBlob.null 32 → ∃ proof res, verifytxoutproof sha256 s proof = .ok res ∧
      ∃ hash ∈ res, ∀ txid ∈ vTxid, hash ≠ txid.getHex) := by
  constructor
  · intro hnull proof txn rest hread hroot hinj
    have hnull' : (extractMatches sha256 txn []).root ≠ BaseBlob.null 32 := hroot ▸ hnull
    have hroot' := hroot.trans hblock
    rw [verifytxoutproof_accepted hread hroot hactive]
    constructor
    · intro hcond res hres hash hhash
      obtain rfl := Except.ok.inj hres
      obtain ⟨id, hid, rfl⟩ := mem_map.mp hhash
      exact ⟨id, matches_ids hne hlimit hinj hnull' hroot' hcond id hid, rfl⟩
    · intro hids h
      apply height_of_matches_ids hne hlimit hinj hnull' hroot' hids
      intro id hid
      obtain ⟨txid, htxid, heq⟩ := h _ rfl id.getHex (mem_map_of_mem hid)
      rwa [getHex_injective heq]
  · intro hnull
    obtain ⟨id, hid⟩ := exists_not_mem hlimit
    have hread : CMerkleBlock.unserialize (CMerkleBlock.serialize ⟨header, overlongProof id⟩ ++ []) =
        .ok (⟨header, overlongProof id⟩, []) :=
      reads_merkleBlock header (t := overlongProof id) (by decide : 1 ≤ MAX_SIZE) (by decide : 16 ≤ MAX_SIZE)
        (by decide : 16 % 8 = 0) rfl []
    have hextract := @extractMatches_overlongProof sha256 id
    have haccepted := verifytxoutproof_accepted hread ((congrArg Extracted.root hextract).trans hnull.symm) hactive
    rw [hextract] at haccepted
    refine ⟨_, _, haccepted, id.getHex, mem_map_of_mem mem_cons_self, ?_⟩
    rintro txid htxid heq
    exact hid (getHex_injective heq ▸ htxid)

def twoNodesProof : CPartialMerkleTree :=
  ⟨2, [true, true, false, false, false, false, false, false],
    [treeNode (merklePair cSHA256) (leafAt threeLeaves) 3 1 0, treeNode (merklePair cSHA256) (leafAt threeLeaves) 3 1 1], false⟩

def threeLeavesHeader : CBlockHeader :=
  ⟨1, BaseBlob.null 32, (computeMerkleRoot cSHA256 threeLeaves).1, 0, 0, 0, BaseBlob.null 32⟩

def chainOf (hash : Uint256) : ChainState := ⟨[hash], fun _ => CBlockIndex.null, [hash], [], [], 0, 0, 0⟩

lemma chainOf_active (hash : Uint256) : hash ∈ (chainOf hash).mapBlockIndex ∧ (chainOf hash).contains hash = true :=
  ⟨mem_singleton_self hash, decide_eq_true rfl⟩

lemma injOn_allHashedPairs_threeLeaves {t : CPartialMerkleTree} (h : ∀ p ∈ extractRootPairs cSHA256 t, p ∈ threePairs) :
    Set.InjOn (Function.uncurry (merklePair cSHA256)) (allHashedPairs cSHA256 threeLeaves t) :=
  injOn_threeLeaves.mono (Set.union_subset subset_rfl (fun p hp => mem_hashedPairs_of_threePairs p (h p hp)))

/-- The proof is accepted, and what it gives is not the id of a transaction. -/
theorem verifytxoutproof_unsound :
    Set.InjOn (Function.uncurry (merklePair cSHA256)) (allHashedPairs cSHA256 threeLeaves twoNodesProof) ∧
      threeLeavesHeader.hashMerkleRoot = (computeMerkleRoot cSHA256 threeLeaves).1 ∧
      ∃ res, verifytxoutproof cSHA256 (chainOf (threeLeavesHeader.getHash cSHA256))
        (CMerkleBlock.serialize ⟨threeLeavesHeader, twoNodesProof⟩) = .ok res ∧
        ∃ hash ∈ res, ∀ txid ∈ threeLeaves, hash ≠ txid.getHex := by
  have hread := reads_merkleBlock threeLeavesHeader (t := twoNodesProof) (by decide) (by decide) (by decide) rfl []
  rw [append_nil] at hread
  refine ⟨injOn_allHashedPairs_threeLeaves (by decide +kernel), rfl, _,
    verifytxoutproof_accepted hread (by decide +kernel) (chainOf_active _), ?_⟩
  have hmatch : (extractMatches cSHA256 twoNodesProof []).vMatch =
      [treeNode (merklePair cSHA256) (leafAt threeLeaves) 3 1 0] := by
    decide +kernel
  rw [hmatch]
  refine ⟨_, mem_singleton_self _, fun txid htxid heq => ?_⟩
  have hnot : treeNode (merklePair cSHA256) (leafAt threeLeaves) 3 1 0 ∉ threeLeaves := by decide +kernel
  exact hnot (getHex_injective heq ▸ htxid)

def threeLeavesProof : CPartialMerkleTree :=
  ⟨3, [true, true, false, true, true, true, false, false], threeLeaves, false⟩

theorem verifytxoutproof_exact_threeLeaves :
    (verifytxoutproof cSHA256 (chainOf (threeLeavesHeader.getHash cSHA256))
      (CMerkleBlock.serialize ⟨threeLeavesHeader, threeLeavesProof⟩)).isOk ∧
    ∀ res, verifytxoutproof cSHA256 (chainOf (threeLeavesHeader.getHash cSHA256))
      (CMerkleBlock.serialize ⟨threeLeavesHeader, threeLeavesProof⟩) = .ok res →
      ∀ hash ∈ res, ∃ txid ∈ threeLeaves, hash = txid.getHex := by
  have hread := reads_merkleBlock threeLeavesHeader (t := threeLeavesProof) (by decide) (by decide) (by decide) rfl []
  rw [append_nil] at hread
  refine ⟨by decide +kernel, ?_⟩
  exact ((verifytxoutproof_exact (by decide) (by decide) rfl (chainOf_active _)).1 (by decide +kernel) _ _ _ hread
    (by decide +kernel) (injOn_allHashedPairs_threeLeaves (by decide +kernel))).1 (Or.inl rfl)

end Rpc

end MutableBitcoin
