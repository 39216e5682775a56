import MutableBitcoin.CompactMessage

/-!
# The positions of a compact block

`InitData` puts the prefilled transactions at their places and maps the short ids to the places that
are free.
-/

namespace MutableBitcoin
open Lib List

section Free

variable {p : ℕ → Bool}

lemma getElem?_filter_range {n q : ℕ} (hq : q < n) (hp : p q = true) :
    ((List.range n).filter p)[((List.range q).filter p).length]? = some q := by
  obtain ⟨k, rfl⟩ := Nat.exists_eq_add_of_lt hq
  rw [show q + k + 1 = q + (1 + k) by omega, range_add, filter_append,
    getElem?_append_right le_rfl, Nat.sub_self, Nat.add_comm 1 k, range_succ_eq_map]
  simp [hp]

lemma length_filter_range {n i q : ℕ} (h : ((List.range n).filter p)[i]? = some q) :
    q < n ∧ p q = true ∧ ((List.range q).filter p).length = i := by
  have hmem := mem_of_getElem? h
  rw [mem_filter, mem_range] at hmem
  refine ⟨hmem.1, hmem.2, ?_⟩
  have hnodup : ((List.range n).filter p).Nodup := nodup_range.filter p
  have hget := getElem?_filter_range hmem.1 hmem.2
  exact (List.getElem?_inj (List.getElem?_eq_some_iff.mp hget).1 hnodup).mp (hget.trans h.symm)

lemma length_filter_range_mono {a b : ℕ} (h : a ≤ b) :
    ((List.range a).filter p).length ≤ ((List.range b).filter p).length :=
  ((range_sublist.mpr h).filter p).length_le

lemma length_filter_range_succ (q : ℕ) : ((List.range (q + 1)).filter p).length =
    ((List.range q).filter p).length + if p q then 1 else 0 := by
  rw [range_succ, filter_append, length_append]
  cases h : p q with
  | false => simp [h]
  | true => simp [h]

end Free

namespace PartiallyDownloadedBlock

variable {sha256 : Bytes → Uint256}

section Prefilled

/-- The places of prefilled transactions behind the place `next`. -/
def prefilledPositions : ℕ → List (PrefilledTransaction sha256) → List ℕ
  | _, [] => []
  | next, p :: prefilledtxn =>
    (next + p.index.toNat) :: prefilledPositions (next + p.index.toNat + 1) prefilledtxn

def PrefilledFits (nShort : ℕ) : ℕ → ℕ → List (PrefilledTransaction sha256) → Prop
  | _, _, [] => True
  | i, next, p :: prefilledtxn => p.tx.isNull = false ∧ next + p.index.toNat ≤ 0xffff ∧
      next + p.index.toNat ≤ nShort + i ∧ PrefilledFits nShort (i + 1) (next + p.index.toNat + 1) prefilledtxn

lemma length_prefilledPositions (next : ℕ) (ps : List (PrefilledTransaction sha256)) :
    (prefilledPositions next ps).length = ps.length := by
  induction ps generalizing next with
  | nil => rfl
  | cons p ps ih => rw [prefilledPositions, length_cons, length_cons, ih]

lemma le_of_mem_prefilledPositions {next q : ℕ} {ps : List (PrefilledTransaction sha256)}
    (h : q ∈ prefilledPositions next ps) : next ≤ q := by
  induction ps generalizing next with
  | nil => cases h
  | cons p ps ih =>
    rw [prefilledPositions, mem_cons] at h
    obtain rfl | h := h
    · exact Nat.le_add_right _ _
    · have := ih h
      omega

lemma nodup_prefilledPositions (next : ℕ) (ps : List (PrefilledTransaction sha256)) :
    (prefilledPositions next ps).Nodup := by
  induction ps generalizing next with
  | nil => exact nodup_nil
  | cons p ps ih =>
    rw [prefilledPositions, nodup_cons]
    refine ⟨fun hmem => ?_, ih _⟩
    have := le_of_mem_prefilledPositions hmem
    omega

lemma PrefilledFits.position {nShort i next q : ℕ} {ps : List (PrefilledTransaction sha256)}
    (h : PrefilledFits nShort i next ps) (hq : q ∈ prefilledPositions next ps) :
    q ≤ 0xffff ∧ q < nShort + (i + ps.length) := by
  induction ps generalizing i next with
  | nil => cases hq
  | cons p ps ih =>
    obtain ⟨-, hbits, hgap, hrest⟩ := h
    rw [prefilledPositions, mem_cons] at hq
    rw [length_cons]
    obtain rfl | hq := hq
    · omega
    · have := ih hrest hq
      omega

lemma placePrefilled_spec (nShort i next : ℕ) (ps : List (PrefilledTransaction sha256))
    (txnAvailable : List (Option (CTransaction sha256)))
    (hlength : txnAvailable.length = nShort + (i + ps.length)) :
    (PrefilledFits nShort i next ps ∧ ∃ txnAvailable',
      placePrefilled nShort i (next - 1) ps txnAvailable = .ok txnAvailable' ∧
      txnAvailable'.length = txnAvailable.length ∧
      ∀ q, txnAvailable'[q]? = some none ↔
        txnAvailable[q]? = some none ∧ q ∉ prefilledPositions next ps) ∨
    (¬ PrefilledFits nShort i next ps ∧ placePrefilled nShort i (next - 1) ps txnAvailable =
      .error (.returned .READ_STATUS_INVALID)) := by
  induction ps generalizing i next txnAvailable with
  | nil => exact Or.inl ⟨trivial, txnAvailable, rfl, rfl, fun q => by simp [prefilledPositions]⟩
  | cons p ps ih =>
    have hlast : (next : ℤ) - 1 + (p.index.toNat + 1) = (next + p.index.toNat : ℕ) := by
      push_cast
      ring
    rw [length_cons] at hlength
    unfold placePrefilled PrefilledFits
    dsimp only
    rw [hlast, Int.toNat_natCast]
    cases hnull : p.tx.isNull with
    | true => exact Or.inr ⟨by simp, rfl⟩
    | false =>
      rw [if_neg Bool.false_ne_true]
      by_cases hbits : next + p.index.toNat ≤ 0xffff
      · rw [if_neg (by omega)]
        by_cases hgap : next + p.index.toNat ≤ nShort + i
        · rw [if_neg (by omega), if_neg (by omega)]
          have hnext : ((next + p.index.toNat : ℕ) : ℤ) =
              ((next + p.index.toNat + 1 : ℕ) : ℤ) - 1 := by
            push_cast
            ring
          have hset : (txnAvailable.set (next + p.index.toNat) (some p.tx)).length =
              nShort + (i + 1 + ps.length) := by
            rw [length_set]
            omega
          rw [hnext]
          obtain ⟨hfits, txnAvailable', hok, hlen, hfree⟩ | ⟨hfits, hbad⟩ := ih (i + 1)
            (next + p.index.toNat + 1) (txnAvailable.set (next + p.index.toNat) (some p.tx)) hset
          · refine Or.inl ⟨⟨rfl, hbits, hgap, hfits⟩, txnAvailable', hok, ?_, ?_⟩
            · rw [hlen, length_set]
            · intro q
              rw [hfree, prefilledPositions, mem_cons, not_or, getElem?_set]
              by_cases hq : next + p.index.toNat = q
              · rw [if_pos hq, if_pos (by omega)]
                simp [hq]
              · rw [if_neg hq]
                simp [Ne.symm hq]
          · exact Or.inr ⟨fun h => hfits h.2.2.2, hbad⟩
        · rw [if_pos (by omega)]
          exact Or.inr ⟨fun h => hgap h.2.2.1, rfl⟩
      · rw [if_pos (by omega)]
        exact Or.inr ⟨fun h => hbits h.2.1, rfl⟩

end Prefilled

section ShortIDs

def isFree (txnAvailable : List (Option (CTransaction sha256))) (q : ℕ) : Bool :=
  (txnAvailable[q]?.map Option.isNone).getD false

def freeOf (txnAvailable : List (Option (CTransaction sha256))) : List ℕ :=
  (List.range txnAvailable.length).filter (isFree txnAvailable)

variable {txnAvailable : List (Option (CTransaction sha256))}

lemma isFree_iff {q : ℕ} : isFree txnAvailable q = true ↔ txnAvailable[q]? = some none := by
  unfold isFree
  rcases txnAvailable[q]? with _ | _ | tx <;> simp

def freeBefore (txnAvailable : List (Option (CTransaction sha256))) (q : ℕ) : ℕ :=
  ((List.range q).filter (isFree txnAvailable)).length

lemma freeBefore_succ (q : ℕ) : freeBefore txnAvailable (q + 1) =
    freeBefore txnAvailable q + if isFree txnAvailable q then 1 else 0 :=
  length_filter_range_succ q

lemma skipFilled_eq {i q : ℕ} (hq : q < txnAvailable.length) (hfree : txnAvailable[q]? = some none)
    (hbits : q - i < 2 ^ 16) (fuel : ℕ) {indexOffset : UInt16} (hle : i + indexOffset.toNat ≤ q)
    (hfilled : ∀ r, i + indexOffset.toNat ≤ r → r < q → txnAvailable[r]? ≠ some none)
    (hfuel : q - i - indexOffset.toNat < fuel) :
    skipFilled txnAvailable i fuel indexOffset = .ok (UInt16.ofNat (q - i)) := by
  induction fuel generalizing indexOffset with
  | zero => omega
  | succ fuel ih =>
    unfold skipFilled
    obtain heq | hlt := hle.eq_or_lt
    · have hoffset : q - i = indexOffset.toNat := by omega
      rw [heq, hfree, hoffset, UInt16.ofNat_toNat]
    · have hsucc : (indexOffset + 1).toNat = indexOffset.toNat + 1 := by
        rw [UInt16.toNat_add]
        exact Nat.mod_eq_of_lt (by change indexOffset.toNat + 1 < 2 ^ 16; omega)
      have hhere := hfilled (i + indexOffset.toNat) le_rfl hlt
      have hsome : i + indexOffset.toNat < txnAvailable.length := hlt.trans hq
      rw [getElem?_eq_getElem hsome] at hhere ⊢
      cases hget : txnAvailable[i + indexOffset.toNat] with
      | none => exact absurd (congrArg some hget) hhere
      | some tx =>
        dsimp only
        apply ih
        · omega
        · intro r hr hrq
          exact hfilled r (by omega) hrq
        · omega

lemma skipFilled_next {i q : ℕ} {indexOffset : UInt16}
    (hfew : txnAvailable.length - (freeOf txnAvailable).length < 2 ^ 16)
    (hbefore : freeBefore txnAvailable (i + indexOffset.toNat) = i)
    (hnext : (freeOf txnAvailable)[i]? = some q) :
    skipFilled txnAvailable i (2 ^ 16) indexOffset = .ok (UInt16.ofNat (q - i)) ∧ i ≤ q ∧ q - i < 2 ^ 16 ∧
      freeBefore txnAvailable (q + 1) = i + 1 := by
  obtain ⟨hq, hfree, hcount⟩ := length_filter_range hnext
  change freeBefore txnAvailable q = i at hcount
  have hafter : freeBefore txnAvailable (q + 1) = i + 1 := by
    rw [freeBefore_succ, hcount, if_pos hfree]
  have hle : i + indexOffset.toNat ≤ q := by
    by_contra hlt
    have hmono : freeBefore txnAvailable (q + 1) ≤ freeBefore txnAvailable (i + indexOffset.toNat) :=
      length_filter_range_mono (by omega)
    omega
  have hfilled : ∀ r, i + indexOffset.toNat ≤ r → r < q → txnAvailable[r]? ≠ some none := by
    intro r hr hrq hnone
    have hstep : freeBefore txnAvailable (r + 1) = freeBefore txnAvailable r +
        if isFree txnAvailable r then 1 else 0 := freeBefore_succ r
    rw [if_pos (isFree_iff.mpr hnone)] at hstep
    have hmono : freeBefore txnAvailable (i + indexOffset.toNat) ≤ freeBefore txnAvailable r :=
      length_filter_range_mono hr
    have hmono' : freeBefore txnAvailable (r + 1) ≤ freeBefore txnAvailable q := length_filter_range_mono hrq
    omega
  -- The places before `q` that are not free are at most all that are not free.
  have hbits : q - i < 2 ^ 16 := by
    have hrest : (freeOf txnAvailable).length ≤ i + (txnAvailable.length - q) := by
      obtain ⟨k, hk⟩ := Nat.exists_eq_add_of_le hq.le
      have hsplit : freeOf txnAvailable = (List.range q).filter (isFree txnAvailable) ++
          ((List.range k).map (q + ·)).filter (isFree txnAvailable) := by
        rw [freeOf, hk, range_add, filter_append]
      have htail := (filter_sublist (p := isFree txnAvailable)
        (l := (List.range k).map (q + ·))).length_le
      rw [length_map, length_range] at htail
      rw [hsplit, length_append]
      change freeBefore txnAvailable q + _ ≤ _
      omega
    omega
  exact ⟨skipFilled_eq hq (isFree_iff.mp hfree) hbits _ hle hfilled (by omega), by omega, hbits, hafter⟩

def CrowdedBucket (bucket : ℕ → UInt64 → ℕ) (n : ℕ) : Finset UInt64 → List UInt64 → Prop
  | _, [] => False
  | keys, id :: ids =>
    12 < ((insert id keys).filter (fun key => bucket n key = bucket n id)).card ∨
      CrowdedBucket bucket n (insert id keys) ids

lemma mapShortIDs_spec (bucket : ℕ → UInt64 → ℕ) (n i : ℕ) (indexOffset : UInt16) (ids : List UInt64)
    (shorttxids : ShortIDMap) (hfew : txnAvailable.length - (freeOf txnAvailable).length < 2 ^ 16)
    (hbefore : freeBefore txnAvailable (i + indexOffset.toNat) = i)
    (henough : i + ids.length ≤ (freeOf txnAvailable).length) :
    (¬ CrowdedBucket bucket n shorttxids.keys ids ∧ ∃ shorttxids',
      mapShortIDs bucket n txnAvailable i indexOffset ids shorttxids = .ok shorttxids' ∧
      shorttxids'.keys = shorttxids.keys ∪ ids.toFinset ∧
      (∀ id, id ∉ ids → shorttxids'.lookup id = shorttxids.lookup id) ∧
      (ids.Nodup → ∀ j id, ids[j]? = some id →
        ∃ q, (freeOf txnAvailable)[i + j]? = some q ∧ shorttxids'.lookup id = some (UInt16.ofNat q))) ∨
    (CrowdedBucket bucket n shorttxids.keys ids ∧
      mapShortIDs bucket n txnAvailable i indexOffset ids shorttxids = .error (.returned .READ_STATUS_FAILED)) := by
  induction ids generalizing i indexOffset shorttxids with
  | nil =>
    refine Or.inl ⟨id, shorttxids, rfl, by simp, fun _ _ => rfl, ?_⟩
    intro _ j id hget
    cases hget
  | cons id ids ih =>
    rw [length_cons] at henough
    obtain ⟨q, hq⟩ : ∃ q, (freeOf txnAvailable)[i]? = some q :=
      ⟨_, getElem?_eq_getElem (by omega)⟩
    obtain ⟨hskip, hle, hbits, hafter⟩ := skipFilled_next hfew hbefore hq
    have hoffset : (UInt16.ofNat (q - i)).toNat = q - i := UInt16.toNat_ofNat_of_lt' hbits
    have hplace : i + (q - i) = q := by omega
    unfold mapShortIDs CrowdedBucket
    rw [hskip, ok_bind, hoffset, hplace]
    have hkeys : (shorttxids.insert id (UInt16.ofNat q)).keys = insert id shorttxids.keys := by
      ext key
      rw [Finmap.mem_keys, Finmap.mem_insert, Finset.mem_insert, Finmap.mem_keys]
    unfold bucketSize
    dsimp only
    rw [hkeys]
    by_cases hcrowd : 12 < ((insert id shorttxids.keys).filter (fun key => bucket n key = bucket n id)).card
    · rw [if_pos hcrowd]
      exact Or.inr ⟨Or.inl hcrowd, rfl⟩
    · rw [if_neg hcrowd]
      have hbefore' : freeBefore txnAvailable (i + 1 + (UInt16.ofNat (q - i)).toNat) = i + 1 := by
        rw [hoffset, show i + 1 + (q - i) = q + 1 by omega]
        exact hafter
      obtain ⟨hnot, shorttxids', hok, hkeys', hother, hmapped⟩ | ⟨hlater, hfailed⟩ :=
        ih (i + 1) (UInt16.ofNat (q - i)) (shorttxids.insert id (UInt16.ofNat q)) hbefore' (by omega)
      · rw [hkeys] at hnot hkeys'
        refine Or.inl ⟨fun h => h.elim hcrowd hnot, shorttxids', hok, ?_, ?_, ?_⟩
        · rw [hkeys', toFinset_cons, Finset.insert_union, Finset.union_insert]
        · intro key hkey
          rw [mem_cons, not_or] at hkey
          rw [hother key hkey.2, Finmap.lookup_insert_of_ne _ hkey.1]
        · intro hnodup j key hget
          rw [nodup_cons] at hnodup
          cases j with
          | zero =>
            obtain rfl : id = key := Option.some.inj hget
            exact ⟨q, hq, by rw [hother id hnodup.1, Finmap.lookup_insert]⟩
          | succ j =>
            obtain ⟨q', hq', hlookup⟩ := hmapped hnodup.2 j key hget
            exact ⟨q', by rwa [show i + (j + 1) = i + 1 + j by omega], hlookup⟩
      · rw [hkeys] at hlater
        exact Or.inr ⟨Or.inr hlater, hfailed⟩

end ShortIDs

section Phases

variable {cmpctblock : CBlockHeaderAndShortTxIDs sha256}

def freePositions (cmpctblock : CBlockHeaderAndShortTxIDs sha256) : List ℕ :=
  (List.range cmpctblock.blockTxCount).filter
    (fun q => decide (q ∉ prefilledPositions 0 cmpctblock.prefilledtxn))

/-- A message that passes the first checks. -/
structure WellFormed (cmpctblock : CBlockHeaderAndShortTxIDs sha256) : Prop where
  header : cmpctblock.header.isNull = false
  nonempty : cmpctblock.shorttxids ≠ [] ∨ cmpctblock.prefilledtxn ≠ []
  count : cmpctblock.shorttxids.length + cmpctblock.prefilledtxn.length ≤
    MAX_BLOCK_WEIGHT / MIN_SERIALIZABLE_TRANSACTION_WEIGHT
  prefilled : PrefilledFits cmpctblock.shorttxids.length 0 0 cmpctblock.prefilledtxn

/-- The short ids differ and do not crowd a bucket. -/
structure Distinguished (bucket : ℕ → UInt64 → ℕ) (cmpctblock : CBlockHeaderAndShortTxIDs sha256) : Prop where
  nodup : cmpctblock.shorttxids.Nodup
  bucket : ¬ CrowdedBucket bucket cmpctblock.shorttxids.length ∅ cmpctblock.shorttxids

lemma initPrefilled_spec (cmpctblock : CBlockHeaderAndShortTxIDs sha256) :
    (WellFormed cmpctblock ∧ ∃ txnAvailable, initPrefilled cmpctblock = .ok txnAvailable ∧
      txnAvailable.length = cmpctblock.blockTxCount ∧ freeOf txnAvailable = freePositions cmpctblock) ∨
    (¬ WellFormed cmpctblock ∧ initPrefilled cmpctblock = .error (.returned .READ_STATUS_INVALID)) := by
  unfold initPrefilled
  by_cases hheader : cmpctblock.header.isNull ∨
      (cmpctblock.shorttxids.isEmpty ∧ cmpctblock.prefilledtxn.isEmpty)
  · rw [if_pos hheader]
    refine Or.inr ⟨fun h => ?_, rfl⟩
    obtain hnull | hempty := hheader
    · rw [h.header] at hnull
      cases hnull
    · rw [List.isEmpty_iff, List.isEmpty_iff] at hempty
      obtain hne | hne := h.nonempty
      · exact hne hempty.1
      · exact hne hempty.2
  · rw [if_neg hheader]
    rw [not_or, List.isEmpty_iff, List.isEmpty_iff, not_and_or, Bool.not_eq_true] at hheader
    by_cases hcount : MAX_BLOCK_WEIGHT / MIN_SERIALIZABLE_TRANSACTION_WEIGHT <
        cmpctblock.shorttxids.length + cmpctblock.prefilledtxn.length
    · rw [if_pos hcount]
      exact Or.inr ⟨fun h => absurd hcount (not_lt.mpr h.count), rfl⟩
    · rw [if_neg hcount]
      have hlength : (List.replicate cmpctblock.blockTxCount (none : Option (CTransaction sha256))).length =
          cmpctblock.shorttxids.length + (0 + cmpctblock.prefilledtxn.length) := by
        rw [length_replicate, zero_add]
        rfl
      obtain ⟨hfits, txnAvailable, hok, hlen, hfree⟩ | ⟨hfits, hbad⟩ :=
        placePrefilled_spec cmpctblock.shorttxids.length 0 0 cmpctblock.prefilledtxn
          (List.replicate cmpctblock.blockTxCount none) hlength
      · rw [length_replicate] at hlen
        refine Or.inl ⟨⟨hheader.1, hheader.2, not_lt.mp hcount, hfits⟩, txnAvailable, hok, hlen, ?_⟩
        rw [freeOf, freePositions, hlen]
        apply filter_congr
        intro q hq
        rw [mem_range] at hq
        rw [Bool.eq_iff_iff, isFree_iff, hfree, getElem?_replicate, if_pos hq, decide_eq_true_eq]
        simp
      · exact Or.inr ⟨fun h => hfits h.prefilled, hbad⟩

lemma WellFormed.length_freePositions (h : WellFormed cmpctblock) :
    (freePositions cmpctblock).length = cmpctblock.shorttxids.length := by
  have hsub : ∀ q ∈ prefilledPositions 0 cmpctblock.prefilledtxn, q < cmpctblock.blockTxCount := by
    intro q hq
    have := (h.prefilled.position hq).2
    rwa [zero_add] at this
  have htaken : ((List.range cmpctblock.blockTxCount).filter
      (fun q => decide (q ∈ prefilledPositions 0 cmpctblock.prefilledtxn))).length =
      cmpctblock.prefilledtxn.length := by
    rw [← length_prefilledPositions 0 cmpctblock.prefilledtxn]
    apply List.Perm.length_eq
    rw [perm_ext_iff_of_nodup (nodup_range.filter _) (nodup_prefilledPositions _ _)]
    intro q
    rw [mem_filter, mem_range, decide_eq_true_eq]
    exact ⟨fun hq => hq.2, fun hq => ⟨hsub q hq, hq⟩⟩
  have hboth := length_eq_length_filter_add (l := List.range cmpctblock.blockTxCount)
    (fun q => decide (q ∈ prefilledPositions 0 cmpctblock.prefilledtxn))
  rw [htaken, length_range] at hboth
  unfold freePositions
  simp only [decide_not]
  unfold CBlockHeaderAndShortTxIDs.blockTxCount at hboth ⊢
  omega

lemma initShortIDs_spec (bucket : ℕ → UInt64 → ℕ) (hwell : WellFormed cmpctblock)
    (hfew : cmpctblock.prefilledtxn.length < 2 ^ 16) {txnAvailable : List (Option (CTransaction sha256))}
    (hlength : txnAvailable.length = cmpctblock.blockTxCount)
    (hfree : freeOf txnAvailable = freePositions cmpctblock) :
    (Distinguished bucket cmpctblock ∧ ∃ shorttxids, initShortIDs bucket cmpctblock txnAvailable = .ok shorttxids ∧
      shorttxids.keys = cmpctblock.shorttxids.toFinset ∧
      ∀ (j : ℕ) id, cmpctblock.shorttxids[j]? = some id →
        ∃ q, (freePositions cmpctblock)[j]? = some q ∧ shorttxids.lookup id = some (UInt16.ofNat q)) ∨
    (¬ Distinguished bucket cmpctblock ∧
      initShortIDs bucket cmpctblock txnAvailable = .error (.returned .READ_STATUS_FAILED)) := by
  have hcount := hwell.length_freePositions
  have htotal : cmpctblock.blockTxCount = cmpctblock.shorttxids.length + cmpctblock.prefilledtxn.length := rfl
  have hfilled : txnAvailable.length - (freeOf txnAvailable).length < 2 ^ 16 := by
    rw [hlength, hfree, hcount]
    omega
  have hbefore : freeBefore txnAvailable (0 + (0 : UInt16).toNat) = 0 := rfl
  have henough : 0 + cmpctblock.shorttxids.length ≤ (freeOf txnAvailable).length := by
    rw [hfree, hcount, zero_add]
  unfold initShortIDs
  obtain ⟨hbucket, shorttxids, hok, hkeys, -, hmapped⟩ | ⟨hbucket, hfailed⟩ := mapShortIDs_spec bucket
    cmpctblock.shorttxids.length 0 0 cmpctblock.shorttxids ∅ hfilled hbefore henough
  · rw [Finmap.keys_empty, Finset.empty_union] at hkeys
    rw [hok, ok_bind, hkeys]
    by_cases hnodup : cmpctblock.shorttxids.Nodup
    · rw [if_neg (not_not.mpr (toFinset_card_of_nodup hnodup))]
      refine Or.inl ⟨⟨hnodup, hbucket⟩, shorttxids, rfl, hkeys, ?_⟩
      intro j id hget
      obtain ⟨q, hq, hlookup⟩ := hmapped hnodup j id hget
      rw [zero_add, hfree] at hq
      exact ⟨q, hq, hlookup⟩
    · have hcard : cmpctblock.shorttxids.toFinset.card ≠ cmpctblock.shorttxids.length :=
        fun h => hnodup (Multiset.toFinset_card_eq_card_iff_nodup.mp h)
      rw [if_pos hcard]
      exact Or.inr ⟨fun h => hnodup h.nodup, rfl⟩
  · rw [hfailed]
    exact Or.inr ⟨fun h => h.bucket hbucket, rfl⟩

end Phases

end PartiallyDownloadedBlock

end MutableBitcoin
