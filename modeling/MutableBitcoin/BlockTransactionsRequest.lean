import MutableBitcoin.CompactMessage

/-!
# Requests for the transactions of a block

`BlockTransactionsRequest` of `blockencodings.h`. The indexes are sent as their differences less one.
-/

namespace MutableBitcoin
open Lib List

/-- The exceptions of the reader. -/
inductive RequestFailure where
  | stream (failure : StreamFailure)
  | indexOverflow
  | indexesOverflow

abbrev DecodeRequest (α : Type) := StateT Bytes (Except RequestFailure) α

def DecodeRequest.read {α : Type} (reader : Read α) : DecodeRequest α := fun vch => (reader vch).mapError .stream

/-- The message `getblocktxn`. -/
structure BlockTransactionsRequest where
  blockhash : Uint256
  indexes : List UInt16

namespace BlockTransactionsRequest

/-- What is written for each index. The subtraction is done in `int`, and the result is converted to `uint64_t`. -/
def differences (next : ℕ) : List UInt16 → List ℕ
  | [] => []
  | index :: indexes => (2 ^ 64 + index.toNat - next) % 2 ^ 64 :: differences (index.toNat + 1) indexes

lemma length_differences (next : ℕ) (indexes : List UInt16) : (differences next indexes).length = indexes.length := by
  induction indexes generalizing next with
  | nil => rfl
  | cons index indexes ih => rw [differences, length_cons, ih, length_cons]

def serialize (r : BlockTransactionsRequest) : Bytes :=
  r.blockhash.data ++ writeCompactSize r.indexes.length ++ (differences 0 r.indexes).flatMap writeCompactSize

def readIndex : DecodeRequest UInt16 := do
  let index ← DecodeRequest.read readCompactSize
  if 0xffff < index then throw .indexOverflow
  else return UInt16.ofNat index

def readChunk : ℕ → DecodeRequest (List UInt16)
  | 0 => pure []
  | n + 1 => do
    let index ← readIndex
    let indexes ← readChunk n
    return index :: indexes

/-- The indexes, at most 1000 at a time. -/
def readIndexes (left : ℕ) : DecodeRequest (List UInt16) :=
  if left = 0 then pure []
  else do
    let chunk ← readChunk (min 1000 left)
    let indexes ← readIndexes (left - min 1000 left)
    return chunk ++ indexes
termination_by left

/-- Turns the differences read into indexes. -/
def addOffsets (offset : UInt16) : List UInt16 → Except RequestFailure (List UInt16)
  | [] => .ok []
  | index :: indexes =>
    if 0xffff < index.toNat + offset.toNat then .error .indexesOverflow
    else do
      let indexes ← addOffsets (index + offset + 1) indexes
      return (index + offset) :: indexes

def decode : DecodeRequest BlockTransactionsRequest := do
  let blockhash ← DecodeRequest.read (readBlob 32)
  let indexesSize ← DecodeRequest.read readCompactSize
  let indexes ← readIndexes indexesSize
  let indexes ← addOffsets 0 indexes
  return ⟨blockhash, indexes⟩

section Read

variable {α : Type} {vch rest : Bytes} {n : ℕ}

lemma read_eq_ok_iff {reader : Read α} {a : α} :
    DecodeRequest.read reader vch = .ok (a, rest) ↔ reader vch = .ok (a, rest) := by
  unfold DecodeRequest.read
  cases reader vch <;> simp [Except.mapError]

lemma pure_eq_ok_iff {a b : α} : (pure a : DecodeRequest α) vch = .ok (b, rest) ↔ a = b ∧ vch = rest := by
  show Except.ok (a, vch) = Except.ok (b, rest) ↔ _
  rw [Except.ok.injEq, Prod.mk.injEq]

lemma lift_eq_ok_iff {x : Except RequestFailure α} {a : α} :
    (liftM x : DecodeRequest α) vch = .ok (a, rest) ↔ x = .ok a ∧ vch = rest := by
  have hlift : (liftM x : DecodeRequest α) vch = x.bind (fun a => .ok (a, vch)) := rfl
  rw [hlift]
  cases x <;> simp [Except.bind]

lemma readIndex_eq_ok_iff {d : UInt16} :
    readIndex vch = .ok (d, rest) ↔ vch = writeCompactSize d.toNat ++ rest := by
  unfold readIndex
  rw [stateT_bind_eq_ok_iff]
  simp only [read_eq_ok_iff, readCompactSize_eq_ok_iff]
  constructor
  · rintro ⟨index, mid, ⟨-, rfl⟩, h⟩
    split_ifs at h with hlarge
    · cases h
    · obtain ⟨rfl, rfl⟩ := pure_eq_ok_iff.mp h
      rw [UInt16.toNat_ofNat', Nat.mod_eq_of_lt (by omega)]
  · rintro rfl
    have hd := d.toNat_lt
    refine ⟨d.toNat, rest, ⟨(Nat.le_of_lt hd).trans (by decide), rfl⟩, ?_⟩
    rw [if_neg (by omega), UInt16.ofNat_toNat]
    rfl

lemma readChunk_eq_ok_iff {ds : List UInt16} :
    readChunk n vch = .ok (ds, rest) ↔
      ds.length = n ∧ vch = ds.flatMap (fun d => writeCompactSize d.toNat) ++ rest := by
  induction n generalizing vch rest ds with
  | zero =>
    rw [readChunk, pure_eq_ok_iff, length_eq_zero_iff]
    constructor
    · rintro ⟨rfl, rfl⟩
      exact ⟨rfl, rfl⟩
    · rintro ⟨rfl, rfl⟩
      exact ⟨rfl, rfl⟩
  | succ n ih =>
    rw [readChunk]
    simp only [stateT_bind_eq_ok_iff, readIndex_eq_ok_iff, ih, pure_eq_ok_iff]
    constructor
    · rintro ⟨d, mid, rfl, ds', mid', ⟨rfl, rfl⟩, rfl, rfl⟩
      exact ⟨rfl, by rw [flatMap_cons, append_assoc]⟩
    · rintro ⟨hlen, rfl⟩
      obtain ⟨d, ds', rfl⟩ := exists_cons_of_length_eq_add_one hlen
      rw [length_cons, Nat.add_right_cancel_iff] at hlen
      exact ⟨d, _, by rw [flatMap_cons, append_assoc], ds', rest, ⟨hlen, rfl⟩, rfl, rfl⟩

lemma readIndexes_eq_ok_iff {ds : List UInt16} :
    readIndexes n vch = .ok (ds, rest) ↔
      ds.length = n ∧ vch = ds.flatMap (fun d => writeCompactSize d.toNat) ++ rest := by
  induction n using Nat.strong_induction_on generalizing vch rest ds with
  | _ n ih =>
    rw [readIndexes]
    split_ifs with hzero
    · subst hzero
      exact readChunk_eq_ok_iff (n := 0)
    simp only [stateT_bind_eq_ok_iff, readChunk_eq_ok_iff, ih (n - min 1000 n) (by omega), pure_eq_ok_iff]
    constructor
    · rintro ⟨chunk, mid, ⟨hchunk, rfl⟩, ds', mid', ⟨hlen, rfl⟩, rfl, rfl⟩
      rw [length_append, flatMap_append, append_assoc]
      exact ⟨by omega, rfl⟩
    · rintro ⟨hlen, rfl⟩
      refine ⟨ds.take (min 1000 n), (ds.drop (min 1000 n)).flatMap (fun d => writeCompactSize d.toNat) ++ rest,
        ⟨by rw [length_take]; omega, ?_⟩, ds.drop (min 1000 n), rest,
        ⟨by rw [length_drop, hlen], rfl⟩, take_append_drop _ _, rfl⟩
      rw [← append_assoc, ← flatMap_append, take_append_drop]

lemma decode_eq_ok_iff {r : BlockTransactionsRequest} :
    decode vch = .ok (r, rest) ↔ ∃ ds : List UInt16, ds.length ≤ MAX_SIZE ∧ addOffsets 0 ds = .ok r.indexes ∧
      vch = r.blockhash.data ++ (writeCompactSize ds.length ++ (ds.flatMap (fun d => writeCompactSize d.toNat) ++ rest)) := by
  unfold decode
  simp only [stateT_bind_eq_ok_iff, read_eq_ok_iff, readBlob_eq_ok_iff, readCompactSize_eq_ok_iff, readIndexes_eq_ok_iff,
    pure_eq_ok_iff]
  constructor
  · rintro ⟨blockhash, afterHash, rfl, n, afterSize, ⟨hn, rfl⟩, ds, afterIndexes, ⟨rfl, rfl⟩, indexes, mid, hlift, rfl, rfl⟩
    obtain ⟨hadd, rfl⟩ := lift_eq_ok_iff.mp hlift
    exact ⟨ds, hn, hadd, rfl⟩
  · rintro ⟨ds, hn, hadd, rfl⟩
    exact ⟨r.blockhash, _, rfl, ds.length, _, ⟨hn, rfl⟩, ds, rest, ⟨rfl, rfl⟩, r.indexes, rest,
      lift_eq_ok_iff.mpr ⟨hadd, rfl⟩, rfl, rfl⟩

end Read

section Differences

variable {ds indexes : List UInt16} {offset : UInt16}

/-- The sums of the differences, counted from `next`, do not reach `2 ^ 16` before the last index. -/
def WrapFree (next : ℕ) (ds : List ℕ) : Prop :=
  ∀ pre, pre <+: ds → pre ≠ ds → next + (pre.map (· + 1)).sum ≠ 2 ^ 16

lemma wrapFree_cons {next d : ℕ} {ds : List ℕ} (hnext : next < 2 ^ 16) :
    WrapFree next (d :: ds) ↔ WrapFree (next + d + 1) ds := by
  constructor
  · intro h pre hpre hne
    have := h (d :: pre) (cons_prefix_cons.mpr ⟨rfl, hpre⟩) (fun heq => hne (List.cons.inj heq).2)
    rw [map_cons, sum_cons] at this
    omega
  · intro h pre hpre hne
    cases pre with
    | nil =>
      rw [map_nil, sum_nil]
      omega
    | cons e pre =>
      obtain ⟨rfl, htail⟩ := cons_prefix_cons.mp hpre
      have := h pre htail (fun heq => hne (congrArg (e :: ·) heq))
      rw [map_cons, sum_cons]
      omega

lemma wrapFree_nil (next : ℕ) : WrapFree next [] := fun _ hpre hne => absurd (prefix_nil.mp hpre) hne

lemma addOffsets_cons_eq_ok_iff {d : UInt16} :
    addOffsets offset (d :: ds) = .ok indexes ↔ d.toNat + offset.toNat < 2 ^ 16 ∧
      ∃ tail, addOffsets (d + offset + 1) ds = .ok tail ∧ indexes = (d + offset) :: tail := by
  rw [addOffsets]
  split_ifs with hover
  · refine ⟨fun h => (nomatch h), fun h => ?_⟩
    omega
  · rw [bind_eq_ok_iff]
    constructor
    · rintro ⟨tail, htail, heq⟩
      exact ⟨by omega, tail, htail, (Except.ok.inj heq).symm⟩
    · rintro ⟨-, tail, htail, rfl⟩
      exact ⟨tail, htail, rfl⟩

lemma toNat_add_offset {d : UInt16} (h : d.toNat + offset.toNat < 2 ^ 16) : (d + offset).toNat = d.toNat + offset.toNat := by
  rw [UInt16.toNat_add, Nat.mod_eq_of_lt h]

lemma toNat_next {i : UInt16} (h : i.toNat + 1 ≠ 2 ^ 16) : (i + 1).toNat = i.toNat + 1 := by
  have hlt := i.toNat_lt
  rw [UInt16.toNat_add, UInt16.toNat_one]
  omega

lemma addOffsets_wrapFree (h : addOffsets offset ds = .ok indexes) (hfree : WrapFree offset.toNat (ds.map UInt16.toNat)) :
    indexes.Pairwise (· < ·) ∧ (∀ i ∈ indexes, offset ≤ i) ∧ differences offset.toNat indexes = ds.map UInt16.toNat := by
  induction ds generalizing offset indexes with
  | nil =>
    obtain rfl := Except.ok.inj h
    exact ⟨List.Pairwise.nil, fun i hi => absurd hi not_mem_nil, rfl⟩
  | cons d ds ih =>
    obtain ⟨hlt, tail, htail, rfl⟩ := addOffsets_cons_eq_ok_iff.mp h
    have hindex := toNat_add_offset hlt
    rw [map_cons, wrapFree_cons offset.toNat_lt] at hfree
    have hhead : (2 ^ 64 + (d + offset).toNat - offset.toNat) % 2 ^ 64 = d.toNat := by omega
    have hle : offset ≤ d + offset := UInt16.le_iff_toNat_le.mpr (by omega)
    cases ds with
    | nil =>
      obtain rfl := Except.ok.inj htail
      refine ⟨pairwise_singleton _ _, ?_, ?_⟩
      · rw [forall_mem_singleton]
        exact hle
      · rw [differences, hhead]
        rfl
    | cons e ds =>
      have hnext := hfree [] nil_prefix (cons_ne_nil _ _).symm
      rw [map_nil, sum_nil] at hnext
      have hstep := toNat_next (show (d + offset).toNat + 1 ≠ 2 ^ 16 by omega)
      rw [show offset.toNat + d.toNat + 1 = (d + offset + 1).toNat by omega] at hfree
      obtain ⟨hpair, hall, hdiff⟩ := ih htail hfree
      have hrise : ∀ i ∈ tail, d + offset < i := by
        intro i hi
        have := UInt16.le_iff_toNat_le.mp (hall i hi)
        exact UInt16.lt_iff_toNat_lt.mpr (by omega)
      refine ⟨pairwise_cons.mpr ⟨hrise, hpair⟩, ?_, ?_⟩
      · rw [forall_mem_cons]
        exact ⟨hle, fun i hi => UInt16.le_trans hle (UInt16.le_of_lt (hrise i hi))⟩
      · rw [differences, hhead, ← hstep, hdiff]
        rfl

lemma wrapFree_of_pairwise (h : addOffsets offset ds = .ok indexes) (hpair : indexes.Pairwise (· < ·)) :
    WrapFree offset.toNat (ds.map UInt16.toNat) := by
  induction ds generalizing offset indexes with
  | nil => exact wrapFree_nil _
  | cons d ds ih =>
    obtain ⟨hlt, tail, htail, rfl⟩ := addOffsets_cons_eq_ok_iff.mp h
    have hindex := toNat_add_offset hlt
    obtain ⟨hrise, hpair⟩ := pairwise_cons.mp hpair
    rw [map_cons, wrapFree_cons offset.toNat_lt]
    cases ds with
    | nil => exact wrapFree_nil _
    | cons e ds =>
      obtain ⟨-, tail', -, rfl⟩ := addOffsets_cons_eq_ok_iff.mp htail
      have hlarger := UInt16.lt_iff_toNat_lt.mp (hrise _ mem_cons_self)
      have hbound := (e + (d + offset + 1)).toNat_lt
      rw [show offset.toNat + d.toNat + 1 = (d + offset + 1).toNat by rw [toNat_next (by omega)]; omega]
      exact ih htail hpair

lemma exists_differences {next : ℕ} (hpair : indexes.Pairwise (· < ·)) (hall : ∀ i ∈ indexes, next ≤ i.toNat)
    (hoffset : indexes = [] ∨ offset.toNat = next) :
    ∃ ds : List UInt16, differences next indexes = ds.map UInt16.toNat ∧ addOffsets offset ds = .ok indexes := by
  induction indexes generalizing next offset with
  | nil => exact ⟨[], rfl, rfl⟩
  | cons i indexes ih =>
    obtain ⟨hrise, hpair⟩ := pairwise_cons.mp hpair
    rw [forall_mem_cons] at hall
    have hi := i.toNat_lt
    have hoffset := hoffset.resolve_left (cons_ne_nil _ _)
    have hd : (UInt16.ofNat (i.toNat - next)).toNat = i.toNat - next := UInt16.toNat_ofNat_of_lt' (by
      have : UInt16.size = 2 ^ 16 := rfl
      omega)
    have hsum : UInt16.ofNat (i.toNat - next) + offset = i := by
      apply UInt16.toNat_inj.mp
      rw [toNat_add_offset (by omega), hd]
      omega
    have hnext : indexes = [] ∨ (i + 1).toNat = i.toNat + 1 := by
      cases indexes with
      | nil => exact Or.inl rfl
      | cons j indexes =>
        have hj := UInt16.lt_iff_toNat_lt.mp (hrise j mem_cons_self)
        have hjlt := j.toNat_lt
        exact Or.inr (toNat_next (by omega))
    obtain ⟨ds, hdiff, hadd⟩ := ih hpair (fun j hj => UInt16.lt_iff_toNat_lt.mp (hrise j hj)) hnext
    refine ⟨UInt16.ofNat (i.toNat - next) :: ds, ?_, ?_⟩
    · rw [differences, hdiff, map_cons, hd, show (2 ^ 64 + i.toNat - next) % 2 ^ 64 = i.toNat - next by omega]
    · rw [addOffsets_cons_eq_ok_iff, hsum]
      exact ⟨by omega, indexes, hadd, rfl⟩

lemma length_le_of_pairwise (hpair : indexes.Pairwise (· < ·)) : indexes.length ≤ 2 ^ 16 := by
  have hdistinct : indexes.Nodup := hpair.imp (fun h => UInt16.ne_of_lt h)
  have hnodup : (indexes.map UInt16.toNat).Nodup := hdistinct.map (fun a b h => UInt16.toNat_inj.mp h)
  have hsub : indexes.map UInt16.toNat ⊆ List.range (2 ^ 16) := by
    intro n hn
    obtain ⟨i, -, rfl⟩ := mem_map.mp hn
    exact mem_range.mpr i.toNat_lt
  have hle := (hnodup.subperm hsub).length_le
  rwa [length_map, length_range] at hle

end Differences

section Codec

variable {vch rest : Bytes} {r : BlockTransactionsRequest}

def readDifferences : Read (List ℕ) := do
  let _blockhash ← readBlob 32
  let indexesSize ← readCompactSize
  readMany readCompactSize indexesSize

lemma decode_serialize (hpair : r.indexes.Pairwise (· < ·)) (rest : Bytes) :
    decode (r.serialize ++ rest) = .ok (r, rest) := by
  have hzero : r.indexes = [] ∨ (0 : UInt16).toNat = 0 := Or.inr rfl
  obtain ⟨ds, hdiff, hadd⟩ := exists_differences hpair (fun i _ => Nat.zero_le i.toNat) hzero
  have hlen : ds.length = r.indexes.length := by
    have := congrArg List.length hdiff
    rwa [length_map, length_differences, eq_comm] at this
  refine decode_eq_ok_iff.mpr ⟨ds, ?_, hadd, ?_⟩
  · rw [hlen]
    exact (length_le_of_pairwise hpair).trans (by decide)
  · rw [serialize, hdiff, hlen, flatMap_map, append_assoc, append_assoc]

lemma readDifferences_eq {ds : List UInt16} (hlen : ds.length ≤ MAX_SIZE) (blockhash : Uint256) :
    readDifferences (blockhash.data ++ (writeCompactSize ds.length ++
      (ds.flatMap (fun d => writeCompactSize d.toNat) ++ rest))) = .ok (ds.map UInt16.toNat, rest) := by
  have hreads : ∀ n ∈ ds.map UInt16.toNat, Reads readCompactSize (writeCompactSize n) (id n) := by
    intro n hn
    obtain ⟨d, -, rfl⟩ := mem_map.mp hn
    exact reads_compactSize ((Nat.le_of_lt d.toNat_lt).trans (by decide))
  have hmany := reads_many hreads rest
  rw [length_map, flatMap_map, map_id] at hmany
  refine read_bind_eq_ok_iff.mpr ⟨blockhash, _, readBlob_eq_ok_iff.mpr rfl, ?_⟩
  exact read_bind_eq_ok_iff.mpr ⟨ds.length, _, readCompactSize_eq_ok_iff.mpr ⟨hlen, rfl⟩, hmany⟩

/-- A rising list is decoded from what is written for it. A list that is decoded rises and is written as the bytes that
were taken if and only if the differences do not add up to `2 ^ 16` before the last index. -/
theorem codec_exact (r : BlockTransactionsRequest) (vch rest : Bytes) :
    (r.indexes.Pairwise (· < ·) → decode (r.serialize ++ rest) = .ok (r, rest)) ∧
    (decode vch = .ok (r, rest) →
      ((r.indexes.Pairwise (· < ·) ∧ vch = r.serialize ++ rest) ↔
        ∃ ds, readDifferences vch = .ok (ds, rest) ∧ WrapFree 0 ds)) := by
  refine ⟨fun hpair => decode_serialize hpair rest, fun h => ?_⟩
  obtain ⟨ds, hlen, hadd, rfl⟩ := decode_eq_ok_iff.mp h
  rw [readDifferences_eq hlen]
  constructor
  · rintro ⟨hpair, -⟩
    exact ⟨ds.map UInt16.toNat, rfl, wrapFree_of_pairwise hadd hpair⟩
  · rintro ⟨ds', hread, hfree⟩
    obtain ⟨rfl, -⟩ := Prod.mk.inj (Except.ok.inj hread)
    obtain ⟨hpair, -, hdiff⟩ := addOffsets_wrapFree hadd hfree
    rw [UInt16.toNat_zero] at hdiff
    refine ⟨hpair, ?_⟩
    have hlen : r.indexes.length = ds.length := by
      have := congrArg List.length hdiff
      rwa [length_differences, length_map] at this
    rw [serialize, hdiff, hlen, flatMap_map, append_assoc, append_assoc]

def wrappedRequest : Bytes := List.replicate 32 0 ++ [2, 253, 255, 255, 0]

/-- The second index is not larger than the first, and the decoded list is not written as it came. -/
theorem codec_fails_behind_wrap :
    decode wrappedRequest = .ok (⟨BaseBlob.null 32, [65535, 0]⟩, []) ∧
      ¬[(65535 : UInt16), 0].Pairwise (· < ·) ∧
      wrappedRequest ≠ serialize ⟨BaseBlob.null 32, [65535, 0]⟩ := by
  refine ⟨decode_eq_ok_iff.mpr ⟨[65535, 0], by decide, rfl, by decide⟩, by decide, by decide⟩

theorem codec_exact_fourIndexes :
    decode (serialize ⟨BaseBlob.null 32, [0, 1, 3, 4]⟩) = .ok (⟨BaseBlob.null 32, [0, 1, 3, 4]⟩, []) ∧
      ∃ ds, readDifferences (serialize ⟨BaseBlob.null 32, [0, 1, 3, 4]⟩) = .ok (ds, []) ∧ WrapFree 0 ds := by
  have hdecode := (codec_exact ⟨BaseBlob.null 32, [0, 1, 3, 4]⟩ [] []).1 (by decide)
  rw [append_nil] at hdecode
  exact ⟨hdecode, ((codec_exact _ _ _).2 hdecode).mp ⟨by decide, (append_nil _).symm⟩⟩

end Codec

end BlockTransactionsRequest

end MutableBitcoin
