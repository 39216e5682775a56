import MutableBitcoin.Unserialize

/-!
# Transactions on the wire

What `SerializeTransaction` writes is read back by `UnserializeTransaction`, if the transaction has
an input and no vector is longer than `MAX_SIZE`.
-/

namespace MutableBitcoin
open Lib List UInt8

/-- The reader turns `bytes` into `a` and leaves what stands behind them. -/
def Reads {α : Type} (read : Read α) (bytes : Bytes) (a : α) : Prop :=
  ∀ rest, read (bytes ++ rest) = .ok (a, rest)

section Combinators

variable {α β : Type}

lemma Reads.bind {read : Read α} {f : α → Read β} {bytes bytes' : Bytes} {a : α} {b : β}
    (ha : Reads read bytes a) (hb : Reads (f a) bytes' b) : Reads (read >>= f) (bytes ++ bytes') b := by
  intro rest
  rw [append_assoc]
  exact read_bind_eq_ok_iff.mpr ⟨a, bytes' ++ rest, ha _, hb rest⟩

lemma reads_pure (a : α) : Reads (pure a) [] a :=
  fun _ => rfl

lemma Reads.map {read : Read α} {bytes : Bytes} {a : α} (ha : Reads read bytes a) (f : α → β) :
    Reads (read >>= fun a => pure (f a)) bytes (f a) := by
  have h : Reads (read >>= fun a => pure (f a)) (bytes ++ []) (f a) := ha.bind (reads_pure (f a))
  rwa [append_nil] at h

lemma reads_bytes (bytes : Bytes) : Reads (readBytes bytes.length) bytes bytes :=
  fun _ => readBytes_eq_ok_iff.mpr ⟨rfl, rfl⟩

lemma reads_blob {width : ℕ} (blob : BaseBlob width) : Reads (readBlob width) blob.data blob :=
  fun _ => readBlob_eq_ok_iff.mpr rfl

lemma reads_nat {width n : ℕ} (h : n < 256 ^ width) : Reads (readNat width) (leBytes width n) n :=
  fun _ => readNat_eq_ok_iff.mpr ⟨leBytes width n, length_leBytes width n, rfl, leValue_leBytes h⟩

lemma reads_many {read : Read α} {serialize : α → Bytes} {erase : α → α} {v : List α}
    (h : ∀ a ∈ v, Reads read (serialize a) (erase a)) :
    Reads (readMany read v.length) (v.flatMap serialize) (v.map erase) := by
  induction v with
  | nil => exact reads_pure []
  | cons a v ih =>
    have hv := ih (fun b hb => h b (mem_cons_of_mem _ hb))
    rw [flatMap_cons]
    exact (h a mem_cons_self).bind (hv.map (erase a :: ·))

end Combinators

section Numbers

lemma reads_uInt8 (b : UInt8) : Reads readUInt8 [b] b :=
  fun _ => readUInt8_eq_ok_iff.mpr rfl

lemma reads_uInt32 (a : UInt32) : Reads readUInt32 (serializeUInt32 a) a := by
  have hlt : a.toNat < 256 ^ 4 := a.toNat_lt
  have h := (reads_nat hlt).map UInt32.ofNat
  rwa [UInt32.ofNat_toNat] at h

lemma reads_int32 (a : Int32) : Reads readInt32 (serializeInt32 a) a :=
  (reads_uInt32 a.toUInt32).map UInt32.toInt32

lemma reads_int64 (a : Int64) : Reads readInt64 (serializeInt64 a) a := by
  have hlt : a.toUInt64.toNat < 256 ^ 8 := a.toUInt64.toNat_lt
  have h := (reads_nat hlt).map (fun n => (UInt64.ofNat n).toInt64)
  rwa [UInt64.ofNat_toNat] at h

/-- Reads a number and refuses it if `p` holds. -/
def readGuarded (read : Read ℕ) (p : ℕ → Prop) [DecidablePred p] (failure : StreamFailure) : Read ℕ := do
  let n ← read
  if p n then throw failure else return n

lemma Reads.guarded {read : Read ℕ} {bytes : Bytes} {n : ℕ} (hread : Reads read bytes n) (p : ℕ → Prop)
    [DecidablePred p] (failure : StreamFailure) (hn : ¬ p n) :
    Reads (readGuarded read p failure) bytes n := by
  have h : Reads (readGuarded read p failure) (bytes ++ []) n := by
    refine hread.bind ?_
    rw [if_neg hn]
    exact reads_pure n
  rwa [append_nil] at h

lemma reads_size {width least n : ℕ} (hn : n < 256 ^ width) (hleast : least ≤ n) :
    Reads (readSize width least) (leBytes width n) n :=
  (reads_nat hn).guarded (· < least) .nonCanonical (not_lt.mpr hleast)

lemma reads_compactSize {n : ℕ} (hn : n ≤ MAX_SIZE) : Reads readCompactSize (writeCompactSize n) n := by
  have hmax : n ≤ 0x02000000 := hn
  have hmarked : ∀ (chSize : UInt8) (bytes : Bytes), Reads (readSizeAfter chSize) bytes n →
      Reads readCompactSize (chSize :: bytes) n := by
    intro chSize bytes hsize
    exact (reads_uInt8 chSize).bind (hsize.guarded (MAX_SIZE < ·) .sizeTooLarge (not_lt.mpr hn))
  unfold writeCompactSize
  split_ifs with h253 hshort hint
  · apply hmarked
    have hlt : UInt8.ofNat n < 253 := by
      rw [lt_iff_toNat_lt, toNat_ofNat']
      exact (Nat.mod_le _ _).trans_lt h253
    have hval : (UInt8.ofNat n).toNat = n := toNat_ofNat_of_lt' (h253.trans (by decide))
    have h := reads_pure (UInt8.ofNat n).toNat
    unfold readSizeAfter ByteStream.readSizeAfter
    rw [if_pos hlt]
    rwa [hval] at h ⊢
  · exact hmarked 253 _ (reads_size (by omega) (by omega))
  · exact hmarked 254 _ (reads_size (by omega) (by omega))
  · omega

lemma readSize_eq_ok_iff {width least n : ℕ} {vch rest : Bytes} :
    readSize width least vch = .ok (n, rest) ↔ least ≤ n ∧ n < 256 ^ width ∧ vch = leBytes width n ++ rest := by
  constructor
  · intro h
    refine ⟨le_of_readSize h, ?_⟩
    obtain ⟨m, mid, hm, h⟩ := read_bind_eq_ok_iff.mp h
    by_cases hlt : m < least
    · rw [if_pos hlt] at h
      cases h
    · rw [if_neg hlt] at h
      obtain ⟨rfl, rfl⟩ := read_pure_eq_ok_iff.mp h
      obtain ⟨bytes, hlen, rfl, rfl⟩ := readNat_eq_ok_iff.mp hm
      have hvalue : leValue bytes < 256 ^ width := hlen ▸ leValue_lt bytes
      refine ⟨hvalue, ?_⟩
      rw [leValue_injOn ((length_leBytes width _).trans hlen.symm) (leValue_leBytes hvalue)]
  · rintro ⟨hleast, hn, rfl⟩
    exact reads_size hn hleast rest

lemma readCompactSize_eq_ok_iff {n : ℕ} {vch rest : Bytes} :
    readCompactSize vch = .ok (n, rest) ↔ n ≤ MAX_SIZE ∧ vch = writeCompactSize n ++ rest := by
  constructor
  · intro h
    obtain ⟨chSize, mid, hch, h⟩ := read_bind_eq_ok_iff.mp h
    obtain ⟨m, mid', hsize, h⟩ := read_bind_eq_ok_iff.mp h
    by_cases hlt : MAX_SIZE < m
    · rw [if_pos hlt] at h
      cases h
    rw [if_neg hlt] at h
    obtain ⟨rfl, rfl⟩ := read_pure_eq_ok_iff.mp h
    obtain rfl := readUInt8_eq_ok_iff.mp hch
    have hmax : m ≤ 0x02000000 := not_lt.mp hlt
    refine ⟨not_lt.mp hlt, ?_⟩
    unfold ByteStream.readSizeAfter at hsize
    unfold writeCompactSize
    split_ifs at hsize with h253 hshort hint
    · obtain ⟨rfl, rfl⟩ := read_pure_eq_ok_iff.mp hsize
      rw [if_pos (show chSize.toNat < 253 from UInt8.lt_iff_toNat_lt.mp h253), UInt8.ofNat_toNat]
      rfl
    · obtain ⟨hleast, hn, rfl⟩ := readSize_eq_ok_iff.mp hsize
      rw [if_neg (by omega), if_pos (by omega), hshort]
      rfl
    · obtain ⟨hleast, hn, rfl⟩ := readSize_eq_ok_iff.mp hsize
      rw [if_neg (by omega), if_neg (by omega), if_pos (by omega), hint]
      rfl
    · have := le_of_readSize hsize
      omega
  · rintro ⟨hn, rfl⟩
    exact reads_compactSize hn rest

end Numbers

section Vectors

variable {α : Type}

lemma reads_byteVector {v : Bytes} (hv : v.length ≤ MAX_SIZE) : Reads readByteVector (serializeBytes v) v :=
  (reads_compactSize hv).bind (reads_bytes v)

lemma reads_vector {read : Read α} {serialize : α → Bytes} {erase : α → α} {v : List α}
    (hv : v.length ≤ MAX_SIZE) (h : ∀ a ∈ v, Reads read (serialize a) (erase a)) :
    Reads (readVector read) (serializeVector serialize v) (v.map erase) :=
  (reads_compactSize hv).bind (reads_many h)

end Vectors

def CTxIn.withoutWitness (txin : CTxIn) : CTxIn := { txin with scriptWitness := [] }

def CMutableTransaction.withoutWitness (tx : CMutableTransaction) : CMutableTransaction :=
  { tx with vin := tx.vin.map CTxIn.withoutWitness }

/-- No vector is longer than a reader allows. -/
structure FitsMaxSize (tx : CMutableTransaction) : Prop where
  vin : tx.vin.length ≤ MAX_SIZE
  vout : tx.vout.length ≤ MAX_SIZE
  scriptSig : ∀ txin ∈ tx.vin, txin.scriptSig.length ≤ MAX_SIZE
  stack : ∀ txin ∈ tx.vin, txin.scriptWitness.length ≤ MAX_SIZE
  item : ∀ txin ∈ tx.vin, ∀ item ∈ txin.scriptWitness, item.length ≤ MAX_SIZE
  scriptPubKey : ∀ txout ∈ tx.vout, txout.scriptPubKey.length ≤ MAX_SIZE

section Parts

lemma reads_outPoint (o : COutPoint) : Reads readOutPoint o.serialize o :=
  (reads_blob o.hash).bind ((reads_uInt32 o.n).map (COutPoint.mk o.hash))

lemma reads_txIn {txin : CTxIn} (h : txin.scriptSig.length ≤ MAX_SIZE) :
    Reads readTxIn txin.serialize txin.withoutWitness := by
  unfold CTxIn.serialize
  rw [append_assoc]
  refine (reads_outPoint txin.prevout).bind ?_
  refine (reads_byteVector h).bind ?_
  exact (reads_uInt32 txin.nSequence).map (CTxIn.mk txin.prevout txin.scriptSig · [])

lemma reads_txOut {txout : CTxOut} (h : txout.scriptPubKey.length ≤ MAX_SIZE) :
    Reads readTxOut txout.serialize txout :=
  (reads_int64 txout.nValue).bind ((reads_byteVector h).map (CTxOut.mk txout.nValue))

lemma reads_stack {stack : List Bytes} (hstack : stack.length ≤ MAX_SIZE)
    (hitem : ∀ item ∈ stack, item.length ≤ MAX_SIZE) :
    Reads (readVector readByteVector) (serializeVector serializeBytes stack) stack := by
  have h : Reads (readVector readByteVector) (serializeVector serializeBytes stack) (stack.map id) :=
    reads_vector hstack (fun item hmem => reads_byteVector (hitem item hmem))
  rwa [map_id] at h

lemma reads_witnesses {vin : List CTxIn} (hstack : ∀ txin ∈ vin, txin.scriptWitness.length ≤ MAX_SIZE)
    (hitem : ∀ txin ∈ vin, ∀ item ∈ txin.scriptWitness, item.length ≤ MAX_SIZE) :
    Reads (readWitnesses (vin.map CTxIn.withoutWitness))
      (vin.flatMap (fun txin => serializeVector serializeBytes txin.scriptWitness)) vin := by
  induction vin with
  | nil => exact reads_pure []
  | cons txin vin ih =>
    have hvin := ih (fun t ht => hstack t (mem_cons_of_mem _ ht))
      (fun t ht => hitem t (mem_cons_of_mem _ ht))
    have hfirst := reads_stack (hstack txin mem_cons_self) (hitem txin mem_cons_self)
    rw [map_cons, flatMap_cons]
    have hvin := hvin.map ({ txin with scriptWitness := txin.scriptWitness } :: ·)
    exact hfirst.bind hvin

end Parts

section Transaction

variable {tx : CMutableTransaction} {s : SerStream}

lemma reads_vin (h : FitsMaxSize tx) : Reads (readVector readTxIn)
    (serializeVector CTxIn.serialize tx.vin) (tx.vin.map CTxIn.withoutWitness) :=
  reads_vector h.vin (fun txin hmem => reads_txIn (h.scriptSig txin hmem))

lemma reads_vout (h : FitsMaxSize tx) :
    Reads (readVector readTxOut) (serializeVector CTxOut.serialize tx.vout) tx.vout := by
  have hvout : Reads (readVector readTxOut) (serializeVector CTxOut.serialize tx.vout) (tx.vout.map id) :=
    reads_vector h.vout (fun txout hmem => reads_txOut (h.scriptPubKey txout hmem))
  rwa [map_id] at hvout

lemma reads_values (hs : s.forHash = false) (rValue sValue : Uint1024) :
    Reads (readValues s) (rValue.data ++ sValue.data) (rValue, sValue) := by
  unfold readValues ByteStream.readValues
  rw [hs, if_neg Bool.false_ne_true]
  exact (reads_blob rValue).bind ((reads_blob sValue).map (Prod.mk rValue))

lemma reads_inputsOutputs (h : FitsMaxSize tx) (hvin : tx.vin ≠ []) :
    Reads (readInputsOutputs s)
      (serializeVector CTxIn.serialize tx.vin ++ serializeVector CTxOut.serialize tx.vout)
      (0, tx.vin.map CTxIn.withoutWitness, tx.vout) := by
  refine (reads_vin h).bind ?_
  have hsome : ((tx.vin.map CTxIn.withoutWitness).isEmpty && s.fAllowWitness) = false := by
    cases hv : tx.vin with
    | nil => exact absurd hv hvin
    | cons txin vin => rfl
  rw [hsome, if_neg Bool.false_ne_true]
  exact (reads_vout h).map (fun vout => (0, tx.vin.map CTxIn.withoutWitness, vout))

lemma reads_inputsOutputs_extended (h : FitsMaxSize tx) (hs : s.fAllowWitness = true) :
    Reads (readInputsOutputs s)
      (serializeVector CTxIn.serialize [] ++ ([1] ++ (serializeVector CTxIn.serialize tx.vin ++
        serializeVector CTxOut.serialize tx.vout)))
      (1, tx.vin.map CTxIn.withoutWitness, tx.vout) := by
  have hdummy : Reads (readVector readTxIn) (serializeVector CTxIn.serialize []) [] :=
    (reads_compactSize (Nat.zero_le _)).bind (reads_pure [])
  refine hdummy.bind ?_
  rw [isEmpty_nil, hs, Bool.and_self, if_pos rfl]
  refine (reads_uInt8 1).bind ?_
  rw [if_pos (by decide)]
  refine (reads_vin h).bind ?_
  exact (reads_vout h).map (fun vout => (1, tx.vin.map CTxIn.withoutWitness, vout))

lemma reads_transaction (hs : s.forHash = false) {flags : UInt8} {middle tail : Bytes}
    {vin₁ vin₂ : List CTxIn} (hmiddle : Reads (readInputsOutputs s) middle (flags, vin₁, tx.vout))
    (htail : Reads (readFlagged s flags vin₁) tail (0, vin₂)) :
    Reads (unserializeTransaction s)
      ((tx.rValue.data ++ tx.sValue.data) ++ (tx.rscriptSig.data ++ (tx.sscriptSig.data ++
        (serializeInt32 tx.nVersion ++ (middle ++ (tail ++ serializeUInt32 tx.nLockTime))))))
      { tx with vin := vin₂ } := by
  refine (reads_values hs tx.rValue tx.sValue).bind ?_
  refine (reads_blob tx.rscriptSig).bind ?_
  refine (reads_blob tx.sscriptSig).bind ?_
  refine (reads_int32 tx.nVersion).bind ?_
  refine hmiddle.bind ?_
  refine htail.bind ?_
  dsimp only
  rw [if_neg (by decide)]
  exact (reads_uInt32 tx.nLockTime).map (CMutableTransaction.mk tx.rValue tx.sValue tx.rscriptSig
    tx.sscriptSig tx.nVersion vin₂ tx.vout)

lemma reads_basic (h : FitsMaxSize tx) (hvin : tx.vin ≠ []) (hs : s.forHash = false)
    (hflags : (s.fAllowWitness && tx.hasWitness) = false) :
    Reads (unserializeTransaction s) (tx.serialize s) tx.withoutWitness := by
  have htail : Reads (readFlagged s 0 (tx.vin.map CTxIn.withoutWitness)) []
      (0, tx.vin.map CTxIn.withoutWitness) := by
    unfold readFlagged ByteStream.readFlagged
    rw [if_neg (by simp)]
    exact reads_pure _
  have hread := reads_transaction hs (reads_inputsOutputs h hvin) htail
  unfold CMutableTransaction.serialize CMutableTransaction.withoutWitness
  simpa only [hs, hflags, Bool.false_eq_true, if_false, append_assoc, nil_append] using hread

lemma reads_extended (h : FitsMaxSize tx) (hs : s.forHash = false) (hallow : s.fAllowWitness = true)
    (hwitness : tx.hasWitness = true) : Reads (unserializeTransaction s) (tx.serialize s) tx := by
  have htail : Reads (readFlagged s 1 (tx.vin.map CTxIn.withoutWitness))
      (tx.vin.flatMap (fun txin => serializeVector serializeBytes txin.scriptWitness)) (0, tx.vin) := by
    unfold readFlagged ByteStream.readFlagged
    rw [if_pos ⟨by decide, hallow⟩]
    exact (reads_witnesses h.stack h.item).map (Prod.mk (1 ^^^ 1))
  have hread := reads_transaction hs (reads_inputsOutputs_extended h hallow) htail
  unfold CMutableTransaction.serialize
  simpa only [hs, hallow, hwitness, Bool.false_eq_true, Bool.and_self, if_false, if_true,
    append_assoc] using hread

lemma withoutWitness_of_not_hasWitness (h : tx.hasWitness = false) : tx.withoutWitness = tx := by
  have hstack : ∀ txin ∈ tx.vin, txin.withoutWitness = txin := by
    intro txin hmem
    have hempty : txin.scriptWitness = [] := by simpa using any_eq_false.mp h txin hmem
    unfold CTxIn.withoutWitness
    rw [← hempty]
  have hvin : tx.vin.map CTxIn.withoutWitness = tx.vin := by
    rw [map_congr_left hstack, map_id']
  unfold CMutableTransaction.withoutWitness
  rw [hvin]

end Transaction

/-- A transaction with an input, written to a stream that is not for hashing, is read back and its bytes
are consumed: whole if the stream allows witnesses, without its stacks if it does not. -/
theorem unserializeTransaction_serialize (s : SerStream) (tx : CMutableTransaction) (rest : Bytes)
    (hs : s.forHash = false) (hvin : tx.vin ≠ []) (hsize : FitsMaxSize tx) :
    unserializeTransaction s (tx.serialize s ++ rest) =
      .ok (if s.fAllowWitness then tx else tx.withoutWitness, rest) := by
  cases hallow : s.fAllowWitness with
  | false =>
    apply reads_basic hsize hvin hs
    rw [hallow, Bool.false_and]
  | true =>
    cases hwitness : tx.hasWitness with
    | true => exact reads_extended hsize hs hallow hwitness rest
    | false =>
      have hread := reads_basic hsize hvin hs (by rw [hwitness, Bool.and_false]) rest
      rwa [withoutWitness_of_not_hasWitness hwitness] at hread

def stackedTransaction : CMutableTransaction :=
  ⟨largeValue, BaseBlob.null 128, BaseBlob.null 128, largeValue, 2,
    [⟨COutPoint.null, [], SEQUENCE_FINAL, [[], [1, 2]]⟩, ⟨COutPoint.null, [], SEQUENCE_FINAL, []⟩],
    [⟨0, [Opcode.OP_RETURN]⟩], 7⟩

lemma fitsMaxSize_stackedTransaction : FitsMaxSize stackedTransaction :=
  ⟨by decide, by decide, by decide, by decide, by decide, by decide⟩

theorem unserializeTransaction_serialize_stackedTransaction :
    unserializeTransaction ⟨SER_NETWORK, PROTOCOL_VERSION⟩
        (stackedTransaction.serialize ⟨SER_NETWORK, PROTOCOL_VERSION⟩ ++ [9]) =
      .ok (stackedTransaction, [9]) ∧
    unserializeTransaction ⟨SER_DISK, SERIALIZE_TRANSACTION_NO_WITNESS⟩
        (stackedTransaction.serialize ⟨SER_DISK, SERIALIZE_TRANSACTION_NO_WITNESS⟩ ++ [9]) =
      .ok (stackedTransaction.withoutWitness, [9]) :=
  ⟨unserializeTransaction_serialize ⟨SER_NETWORK, PROTOCOL_VERSION⟩ stackedTransaction [9] (by decide)
      (by decide) fitsMaxSize_stackedTransaction,
    unserializeTransaction_serialize ⟨SER_DISK, SERIALIZE_TRANSACTION_NO_WITNESS⟩ stackedTransaction [9]
      (by decide) (by decide) fitsMaxSize_stackedTransaction⟩

end MutableBitcoin
