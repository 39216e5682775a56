import MutableBitcoin.CompactBlock

/-!
# Compact block messages

A compact block that was written is decoded again. A decoded message has at most one prefilled
transaction for each 513 bytes.
-/

namespace MutableBitcoin
open Lib List CBlockHeaderAndShortTxIDs Nat

section Consumes

variable {ε α β : Type}

/-- A reader that succeeds has taken at least `k` bytes. -/
def Consumes (k : ℕ) (read : StateT Bytes (Except ε) α) : Prop :=
  ∀ vch a rest, read vch = .ok (a, rest) → rest.length + k ≤ vch.length

lemma stateT_bind_eq_ok_iff {x : StateT Bytes (Except ε) α} {f : α → StateT Bytes (Except ε) β} {vch rest : Bytes}
    {b : β} : (x >>= f) vch = .ok (b, rest) ↔ ∃ a mid, x vch = .ok (a, mid) ∧ f a mid = .ok (b, rest) := by
  have hbind : (x >>= f) vch = x vch >>= fun q => f q.1 q.2 := rfl
  rw [hbind, bind_eq_ok_iff]
  exact Prod.exists

lemma consumes_pure (a : α) : Consumes 0 (pure a : StateT Bytes (Except ε) α) := by
  intro vch b rest h
  obtain ⟨-, rfl⟩ := Prod.mk.inj (Except.ok.inj h)
  exact le_rfl

lemma consumes_throw (k : ℕ) (e : ε) : Consumes k (throw e : StateT Bytes (Except ε) α) := by
  intro vch b rest h
  cases h

lemma Consumes.bind {k l : ℕ} {x : StateT Bytes (Except ε) α} {f : α → StateT Bytes (Except ε) β}
    (hx : Consumes k x) (hf : ∀ a, Consumes l (f a)) : Consumes (k + l) (x >>= f) := by
  intro vch b rest h
  obtain ⟨a, mid, hfirst, hsecond⟩ := stateT_bind_eq_ok_iff.mp h
  have hle := hx vch a mid hfirst
  have hle' := hf a mid b rest hsecond
  omega

lemma Consumes.andThen {k : ℕ} {x : StateT Bytes (Except ε) α} {f : α → StateT Bytes (Except ε) β}
    (hx : Consumes k x) (hf : ∀ a, Consumes 0 (f a)) : Consumes k (x >>= f) :=
  hx.bind hf

lemma Consumes.mono {k l : ℕ} {x : StateT Bytes (Except ε) α} (hx : Consumes k x) (hle : l ≤ k) :
    Consumes l x := by
  intro vch a rest h
  have := hx vch a rest h
  omega

lemma Consumes.ite {k : ℕ} {c : Prop} [Decidable c] {x y : StateT Bytes (Except ε) α} (hx : Consumes k x)
    (hy : Consumes k y) : Consumes k (if c then x else y) := by
  split_ifs
  · exact hx
  · exact hy

lemma consumes_readBytes (n : ℕ) : Consumes n (readBytes n) := by
  intro vch bytes rest h
  obtain ⟨hlen, rfl⟩ := readBytes_eq_ok_iff.mp h
  rw [length_append, hlen, add_comm]

lemma consumes_readBlob (width : ℕ) : Consumes width (readBlob width) := by
  intro vch blob rest h
  rw [readBlob_eq_ok_iff.mp h, length_append, blob.length_data, add_comm]

lemma consumes_readNat (width : ℕ) : Consumes width (readNat width) :=
  (consumes_readBytes width).bind (fun _ => consumes_pure _)

lemma consumes_readUInt8 : Consumes 1 readUInt8 := (consumes_readNat 1).bind (fun _ => consumes_pure _)

lemma consumes_readUInt32 : Consumes 4 readUInt32 := (consumes_readNat 4).bind (fun _ => consumes_pure _)

lemma consumes_readInt32 : Consumes 4 readInt32 := consumes_readUInt32.bind (fun _ => consumes_pure _)

lemma consumes_readInt64 : Consumes 8 readInt64 := (consumes_readNat 8).bind (fun _ => consumes_pure _)

lemma consumes_readSize (width least : ℕ) : Consumes width (readSize width least) := by
  refine (consumes_readNat width).andThen (fun n => ?_)
  exact Consumes.ite (consumes_throw 0 _) (consumes_pure n)

lemma consumes_readSizeAfter (chSize : UInt8) : Consumes 0 (readSizeAfter chSize) := by
  unfold readSizeAfter
  refine Consumes.ite (consumes_pure _) (Consumes.ite ?_ (Consumes.ite ?_ ?_))
  · exact (consumes_readSize 2 253).mono (zero_le _)
  · exact (consumes_readSize 4 0x10000).mono (zero_le _)
  · exact (consumes_readSize 8 0x100000000).mono (zero_le _)

lemma consumes_readCompactSize : Consumes 1 readCompactSize := by
  refine consumes_readUInt8.andThen (fun chSize => (consumes_readSizeAfter chSize).andThen (fun n => ?_))
  exact Consumes.ite (consumes_throw 0 _) (consumes_pure n)

lemma consumes_readMany {read : Read α} (h : Consumes 0 read) (n : ℕ) : Consumes 0 (readMany read n) := by
  induction n with
  | zero => exact consumes_pure []
  | succ n ih => exact h.andThen (fun _ => ih.andThen (fun _ => consumes_pure _))

lemma consumes_readVector {read : Read α} (h : Consumes 0 read) : Consumes 0 (readVector read) :=
  (consumes_readCompactSize.andThen (fun n => consumes_readMany h n)).mono (zero_le _)

lemma consumes_readByteVector : Consumes 0 readByteVector := by
  have h : Consumes 1 readByteVector :=
    consumes_readCompactSize.andThen (fun n => (consumes_readBytes n).mono (zero_le _))
  exact h.mono (zero_le _)

end Consumes

section Transaction

lemma consumes_readOutPoint : Consumes 32 readOutPoint :=
  (consumes_readBlob 32).andThen (fun _ => (consumes_readUInt32.mono (zero_le _)).andThen
    (fun _ => consumes_pure _))

lemma consumes_readTxIn : Consumes 0 readTxIn := by
  refine (consumes_readOutPoint.mono (zero_le _)).andThen (fun _ => ?_)
  refine consumes_readByteVector.andThen (fun _ => ?_)
  exact (consumes_readUInt32.mono (zero_le _)).andThen (fun _ => consumes_pure _)

lemma consumes_readTxOut : Consumes 0 readTxOut := by
  refine (consumes_readInt64.mono (zero_le _)).andThen (fun _ => ?_)
  exact consumes_readByteVector.andThen (fun _ => consumes_pure _)

lemma consumes_readWitnesses (vin : List CTxIn) : Consumes 0 (readWitnesses vin) := by
  induction vin with
  | nil => exact consumes_pure []
  | cons txin vin ih =>
    refine (consumes_readVector consumes_readByteVector).andThen (fun _ => ?_)
    exact ih.andThen (fun _ => consumes_pure _)

lemma consumes_readInputsOutputs (s : SerStream) : Consumes 0 (readInputsOutputs s) := by
  have hvin := consumes_readVector consumes_readTxIn
  have hvout := consumes_readVector consumes_readTxOut
  refine hvin.andThen (fun vin => Consumes.ite ?_ (hvout.andThen (fun _ => consumes_pure _)))
  refine (consumes_readUInt8.mono (zero_le _)).andThen (fun flags => Consumes.ite ?_ (consumes_pure _))
  exact hvin.andThen (fun _ => hvout.andThen (fun _ => consumes_pure _))

lemma consumes_readFlagged (s : SerStream) (flags : UInt8) (vin : List CTxIn) :
    Consumes 0 (readFlagged s flags vin) :=
  Consumes.ite ((consumes_readWitnesses vin).andThen (fun _ => consumes_pure _)) (consumes_pure _)

lemma consumes_unserializeTransaction {s : SerStream} (hs : s.forHash = false) :
    Consumes 512 (unserializeTransaction s) := by
  have hvalues : Consumes 256 (readValues s) := by
    unfold readValues ByteStream.readValues
    rw [hs, if_neg Bool.false_ne_true]
    exact (consumes_readBlob 128).bind
      (fun _ => (consumes_readBlob 128).andThen (fun _ => consumes_pure _))
  refine hvalues.bind (l := 256) (fun r => ?_)
  obtain ⟨rValue, sValue⟩ := r
  refine (consumes_readBlob 128).bind (l := 128) (fun rscriptSig => ?_)
  refine (consumes_readBlob 128).andThen (fun sscriptSig => ?_)
  refine (consumes_readInt32.mono (zero_le _)).andThen (fun nVersion => ?_)
  refine (consumes_readInputsOutputs s).andThen (fun r => ?_)
  obtain ⟨flags, vin, vout⟩ := r
  refine (consumes_readFlagged s flags vin).andThen (fun r => ?_)
  obtain ⟨flags, vin⟩ := r
  have hlast : Consumes 0 (readUInt32 >>= fun nLockTime => (pure ⟨rValue, sValue, rscriptSig, sscriptSig,
      nVersion, vin, vout, nLockTime⟩ : Read CMutableTransaction)) :=
    (consumes_readUInt32.mono (zero_le _)).andThen (fun _ => consumes_pure _)
  exact Consumes.ite (consumes_throw 0 _) hlast

end Transaction

section Message

variable {sha256 : Bytes → Uint256} {α : Type}

lemma decode_read_eq_ok_iff {reader : Read α} {vch rest : Bytes} {a : α} :
    Decode.read reader vch = .ok (a, rest) ↔ reader vch = .ok (a, rest) := by
  unfold Decode.read
  cases h : reader vch with
  | error e => simp [Except.mapError]
  | ok r => simp [Except.mapError]

lemma Consumes.decode {k : ℕ} {reader : Read α} (h : Consumes k reader) : Consumes k (Decode.read reader) :=
  fun vch a rest hread => h vch a rest (decode_read_eq_ok_iff.mp hread)

lemma consumes_decodePrefilled : Consumes 513 (decodePrefilled sha256) := by
  have htx : Consumes 512 (decodeTransaction sha256) := by
    refine (consumes_unserializeTransaction (s := networkStream) (by decide)).decode.andThen (fun tx => ?_)
    cases CTransaction.make sha256 tx with
    | none => exact consumes_throw 0 _
    | some tx => exact consumes_pure tx
  refine consumes_readCompactSize.decode.bind (l := 512) (fun idx => ?_)
  exact Consumes.ite (consumes_throw 512 _) (htx.andThen (fun _ => consumes_pure _))

lemma length_decodeMany {decode : Decode α} {k : ℕ} (hk : Consumes k decode) {n : ℕ} {vch rest : Bytes}
    {v : List α} (h : decodeMany decode n vch = .ok (v, rest)) :
    rest.length + v.length * k ≤ vch.length := by
  induction n generalizing vch v with
  | zero =>
    obtain ⟨rfl, rfl⟩ := Prod.mk.inj (Except.ok.inj h)
    simp
  | succ n ih =>
    obtain ⟨a, mid, ha, h⟩ := stateT_bind_eq_ok_iff.mp h
    obtain ⟨v', mid', hv, h⟩ := stateT_bind_eq_ok_iff.mp h
    obtain ⟨rfl, rfl⟩ := Prod.mk.inj (Except.ok.inj h)
    have hfirst := hk vch a mid ha
    have hrest := ih hv
    rw [length_cons, succ_mul]
    omega

lemma consumes_readHeader : Consumes 0 readHeader := by
  have hblob : Consumes 0 (readBlob 32) := (consumes_readBlob 32).mono (zero_le _)
  have hint : Consumes 0 readUInt32 := consumes_readUInt32.mono (zero_le _)
  refine (consumes_readInt32.mono (zero_le _)).andThen (fun _ => hblob.andThen (fun _ => ?_))
  refine hblob.andThen (fun _ => hint.andThen (fun _ => hint.andThen (fun _ => hint.andThen (fun _ => ?_))))
  exact hblob.andThen (fun _ => consumes_pure _)

lemma consumes_readUInt64 : Consumes 8 readUInt64 := (consumes_readNat 8).andThen (fun _ => consumes_pure _)

lemma consumes_readShortID : Consumes 4 readShortID :=
  (consumes_readNat 4).andThen (fun _ => ((consumes_readNat 2).mono (zero_le _)).andThen
    (fun _ => consumes_pure _))

lemma length_prefilledtxn_of_decode {vch rest : Bytes} {c : CBlockHeaderAndShortTxIDs sha256}
    (h : decode sha256 vch = .ok (c, rest)) :
    c.prefilledtxn.length * 513 ≤ vch.length := by
  obtain ⟨header, mid₁, hheader, h⟩ := stateT_bind_eq_ok_iff.mp h
  obtain ⟨nonce, mid₂, hnonce, h⟩ := stateT_bind_eq_ok_iff.mp h
  obtain ⟨shorttxids, mid₃, hids, h⟩ := stateT_bind_eq_ok_iff.mp h
  obtain ⟨prefilledCount, mid₄, hcount, h⟩ := stateT_bind_eq_ok_iff.mp h
  obtain ⟨prefilledtxn, mid₅, hprefilled, h⟩ := stateT_bind_eq_ok_iff.mp h
  obtain ⟨rfl, rfl⟩ := Prod.mk.inj (Except.ok.inj h)
  have h₁ := consumes_readHeader.decode _ _ _ hheader
  have h₂ := consumes_readUInt64.decode _ _ _ hnonce
  have h₃ := (consumes_readVector (consumes_readShortID.mono (zero_le _))).decode _ _ _ hids
  have h₄ := consumes_readCompactSize.decode _ _ _ hcount
  have h₅ := length_decodeMany consumes_decodePrefilled hprefilled
  change prefilledtxn.length * 513 ≤ vch.length
  omega

end Message

section RoundTrip

variable {sha256 : Bytes → Uint256} {α β : Type}

/-- The decoder turns `bytes` into `a` and leaves what stands behind them. -/
def Decodes (decode : Decode α) (bytes : Bytes) (a : α) : Prop :=
  ∀ rest, decode (bytes ++ rest) = .ok (a, rest)

lemma Reads.decodes {reader : Read α} {bytes : Bytes} {a : α} (h : Reads reader bytes a) :
    Decodes (Decode.read reader) bytes a :=
  fun rest => decode_read_eq_ok_iff.mpr (h rest)

lemma Decodes.bind {decode : Decode α} {f : α → Decode β} {bytes bytes' : Bytes} {a : α} {b : β}
    (ha : Decodes decode bytes a) (hb : Decodes (f a) bytes' b) :
    Decodes (decode >>= f) (bytes ++ bytes') b := by
  intro rest
  rw [append_assoc]
  exact stateT_bind_eq_ok_iff.mpr ⟨a, bytes' ++ rest, ha _, hb rest⟩

lemma decodes_pure (a : α) : Decodes (pure a) [] a :=
  fun _ => rfl

lemma Decodes.map {decode : Decode α} {bytes : Bytes} {a : α} (ha : Decodes decode bytes a) (f : α → β) :
    Decodes (decode >>= fun a => pure (f a)) bytes (f a) := by
  have h : Decodes (decode >>= fun a => pure (f a)) (bytes ++ []) (f a) := ha.bind (decodes_pure (f a))
  rwa [append_nil] at h

lemma decodes_many {decode : Decode α} {serialize : α → Bytes} {v : List α}
    (h : ∀ a ∈ v, Decodes decode (serialize a) a) :
    Decodes (decodeMany decode v.length) (v.flatMap serialize) v := by
  induction v with
  | nil => exact decodes_pure []
  | cons a v ih =>
    have hv := ih (fun b hb => h b (mem_cons_of_mem _ hb))
    rw [flatMap_cons]
    exact (h a mem_cons_self).bind (hv.map (a :: ·))

lemma reads_header (h : CBlockHeader) : Reads readHeader h.serialize h := by
  unfold CBlockHeader.serialize
  rw [append_assoc, append_assoc, append_assoc, append_assoc, append_assoc]
  refine (reads_int32 h.nVersion).bind ((reads_blob h.hashPrevBlock).bind ?_)
  refine (reads_blob h.hashMerkleRoot).bind ((reads_uInt32 h.nTime).bind ?_)
  refine (reads_uInt32 h.nBits).bind ((reads_uInt32 h.nNonce).bind ?_)
  exact (reads_blob h.hashUChainVersion).map (CBlockHeader.mk h.nVersion h.hashPrevBlock
    h.hashMerkleRoot h.nTime h.nBits h.nNonce)

lemma reads_uInt64 (a : UInt64) : Reads readUInt64 (serializeUInt64 a) a := by
  have hlt : a.toNat < 256 ^ 8 := a.toNat_lt
  have h := (reads_nat hlt).map UInt64.ofNat
  rwa [UInt64.ofNat_toNat] at h

lemma reads_shortID {id : UInt64} (hid : id.toNat < 2 ^ 48) :
    Reads readShortID (serializeShortID id) id := by
  have hmsb : id.toNat / 2 ^ 32 % 2 ^ 16 = id.toNat / 2 ^ 32 := by omega
  have hlow : id.toNat % 2 ^ 32 < 256 ^ 4 := by omega
  have hhigh : id.toNat / 2 ^ 32 < 256 ^ 2 := by omega
  have hjoin : (UInt64.ofNat (id.toNat / 2 ^ 32) <<< 32) ||| UInt64.ofNat (id.toNat % 2 ^ 32) = id := by
    apply UInt64.toNat_inj.mp
    rw [UInt64.toNat_or, UInt64.toNat_shiftLeft, UInt64.toNat_ofNat', UInt64.toNat_ofNat',
      mod_eq_of_lt (a := id.toNat / 2 ^ 32) (by omega), mod_eq_of_lt (a := id.toNat % 2 ^ 32) (by omega)]
    have hshift : (id.toNat / 2 ^ 32) <<< ((32 : UInt64).toNat % 64) = 2 ^ 32 * (id.toNat / 2 ^ 32) := by
      rw [shiftLeft_eq, mul_comm]
      rfl
    rw [hshift, mod_eq_of_lt (by omega), ← two_pow_add_eq_or_of_lt (by omega)]
    omega
  unfold serializeShortID
  rw [hmsb]
  have h := (reads_nat hhigh).map
    (fun msb => (UInt64.ofNat msb <<< 32) ||| UInt64.ofNat (id.toNat % 2 ^ 32))
  rw [hjoin] at h
  exact (reads_nat hlow).bind h

lemma make_toCMutableTransaction (tx : CTransaction sha256) :
    CTransaction.make sha256 tx.toCMutableTransaction = some tx := by
  rw [CTransaction.make, Option.pmap_eq_some_iff]
  exact ⟨tx.hash, tx.computeHash_eq, tx.computeHash_eq, rfl⟩

lemma decodes_prefilled {p : PrefilledTransaction sha256} (hvin : p.tx.vin ≠ [])
    (hfits : FitsMaxSize p.tx.toCMutableTransaction) :
    Decodes (decodePrefilled sha256) (serializePrefilled p) p := by
  have hidx : p.index.toNat < 2 ^ 16 := p.index.toNat_lt
  have hmax : p.index.toNat ≤ MAX_SIZE := hidx.le.trans (by decide)
  have htx : Reads (unserializeTransaction networkStream)
      (p.tx.toCMutableTransaction.serialize networkStream) p.tx.toCMutableTransaction := by
    intro rest
    have hallow : networkStream.fAllowWitness = true := by decide
    rw [unserializeTransaction_serialize networkStream _ rest (by decide) hvin hfits, hallow, if_pos rfl]
  have hdecode : Decodes (decodeTransaction sha256) (p.tx.toCMutableTransaction.serialize networkStream)
      p.tx := by
    rw [← append_nil (p.tx.toCMutableTransaction.serialize networkStream)]
    refine htx.decodes.bind ?_
    rw [make_toCMutableTransaction]
    exact decodes_pure p.tx
  refine (reads_compactSize hmax).decodes.bind ?_
  rw [if_neg (by omega)]
  have hindex : UInt16.ofNat p.index.toNat = p.index := UInt16.ofNat_toNat
  rw [hindex]
  exact hdecode.map (fun tx => (⟨p.index, tx⟩ : PrefilledTransaction sha256))

/-- A message that a reader does not refuse. -/
structure Sendable (c : CBlockHeaderAndShortTxIDs sha256) : Prop where
  keys : c.fillShortTxIDSelector = c
  shorttxids : c.shorttxids.length ≤ MAX_SIZE
  prefilledtxn : c.prefilledtxn.length ≤ MAX_SIZE
  short : ∀ id ∈ c.shorttxids, id.toNat < 2 ^ 48
  vin : ∀ p ∈ c.prefilledtxn, p.tx.vin ≠ []
  fits : ∀ p ∈ c.prefilledtxn, FitsMaxSize p.tx.toCMutableTransaction

lemma Sendable.decodes {c : CBlockHeaderAndShortTxIDs sha256} (h : Sendable c) :
    Decodes (decode sha256) c.serialize c := by
  have hids : Reads (readVector readShortID)
      (serializeVector serializeShortID c.shorttxids) c.shorttxids := by
    have hread : Reads (readVector readShortID)
        (serializeVector serializeShortID c.shorttxids) (c.shorttxids.map id) :=
      reads_vector h.shorttxids (fun a ha => reads_shortID (h.short a ha))
    rwa [map_id] at hread
  have hprefilled := decodes_many (fun p hp => decodes_prefilled (h.vin p hp) (h.fits p hp))
  unfold serialize serializeVector at *
  rw [append_assoc, append_assoc]
  refine (reads_header c.header).decodes.bind ((reads_uInt64 c.nonce).decodes.bind ?_)
  refine hids.decodes.bind ((reads_compactSize h.prefilledtxn).decodes.bind ?_)
  have hmap := hprefilled.map (fun prefilledtxn => fillShortTxIDSelector
    ⟨0, 0, c.nonce, c.shorttxids, prefilledtxn, c.header⟩)
  have hkeys : fillShortTxIDSelector
      ⟨0, 0, c.nonce, c.shorttxids, c.prefilledtxn, c.header⟩ = c := h.keys
  rwa [hkeys] at hmap

end RoundTrip

section Refusals

variable {ε α β : Type}

/-- The reader fails on `bytes`, whatever stands behind them. -/
def Refuses (read : StateT Bytes (Except ε) α) (bytes : Bytes) : Prop :=
  ∀ rest, ∃ failure, read (bytes ++ rest) = .error failure

lemma Refuses.bind {read : StateT Bytes (Except ε) α} {bytes : Bytes} (h : Refuses read bytes)
    (f : α → StateT Bytes (Except ε) β) (more : Bytes) : Refuses (read >>= f) (bytes ++ more) := by
  intro rest
  obtain ⟨failure, hfailure⟩ := h (more ++ rest)
  refine ⟨failure, ?_⟩
  rw [append_assoc]
  show (read (bytes ++ (more ++ rest)) >>= fun q => f q.1 q.2) = _
  rw [hfailure]
  rfl

lemma Refuses.after {read : StateT Bytes (Except ε) α} {f : α → StateT Bytes (Except ε) β} {bytes bytes' : Bytes}
    {a : α} (hf : Refuses (f a) bytes') (ha : ∀ rest, read (bytes ++ rest) = .ok (a, rest)) :
    Refuses (read >>= f) (bytes ++ bytes') := by
  intro rest
  obtain ⟨failure, hfailure⟩ := hf rest
  refine ⟨failure, ?_⟩
  rw [append_assoc]
  show (read (bytes ++ (bytes' ++ rest)) >>= fun q => f q.1 q.2) = _
  rw [ha]
  exact hfailure

lemma refuses_compactSize {n : ℕ} (hn : MAX_SIZE < n) (hlt : n < 2 ^ 64) :
    Refuses readCompactSize (writeCompactSize n) := by
  have hmax : 0x02000000 < n := hn
  have hmarked : ∀ (chSize : UInt8) (bytes : Bytes), Reads (readSizeAfter chSize) bytes n →
      Refuses readCompactSize (chSize :: bytes) := by
    intro chSize bytes hsize
    refine Refuses.after ?_ (reads_uInt8 chSize)
    rw [← append_nil bytes]
    refine Refuses.after (fun rest => ?_) hsize
    rw [if_pos hn]
    exact ⟨_, rfl⟩
  unfold writeCompactSize
  rw [if_neg (by omega), if_neg (by omega)]
  split_ifs with hint
  · exact hmarked 254 _ (reads_size (by omega) (by omega))
  · exact hmarked 255 _ (reads_size (by omega) (by omega))

lemma refuses_items {items : List Bytes} (hlt : ∀ item ∈ items, item.length < 2 ^ 64)
    (hlong : ∃ item ∈ items, MAX_SIZE < item.length) :
    Refuses (readMany readByteVector items.length) (items.flatMap serializeBytes) := by
  induction items with
  | nil =>
    obtain ⟨item, hmem, -⟩ := hlong
    cases hmem
  | cons item items ih =>
    rw [flatMap_cons]
    by_cases hitem : MAX_SIZE < item.length
    · have hrefused : Refuses readByteVector (serializeBytes item) :=
        (refuses_compactSize hitem (hlt item mem_cons_self)).bind _ item
      exact hrefused.bind _ _
    · refine Refuses.after ?_ (reads_byteVector (not_lt.mp hitem))
      have hrest : Refuses (readMany readByteVector items.length) (items.flatMap serializeBytes) := by
        apply ih (fun b hb => hlt b (mem_cons_of_mem _ hb))
        obtain ⟨long, hmem, hlong⟩ := hlong
        obtain rfl | hmem := mem_cons.mp hmem
        · exact absurd hlong hitem
        · exact ⟨long, hmem, hlong⟩
      have h := hrest.bind (fun v => pure (item :: v)) []
      rwa [append_nil] at h

lemma refuses_stack {stack : List Bytes} (hstack : stack.length < 2 ^ 64)
    (hlt : ∀ item ∈ stack, item.length < 2 ^ 64)
    (hlong : ¬ (stack.length ≤ MAX_SIZE ∧ ∀ item ∈ stack, item.length ≤ MAX_SIZE)) :
    Refuses (readVector readByteVector) (serializeVector serializeBytes stack) := by
  by_cases hlength : stack.length ≤ MAX_SIZE
  · refine (refuses_items hlt ?_).after (reads_compactSize hlength)
    by_contra hnone
    push Not at hnone
    exact hlong ⟨hlength, hnone⟩
  · exact (refuses_compactSize (not_le.mp hlength) hstack).bind _ _

lemma refuses_transaction {tx : CMutableTransaction} {txin : CTxIn} {s : SerStream} (hs : s.forHash = false)
    (hallow : s.fAllowWitness = true) (hvin : tx.vin = [txin]) (hfits : FitsMaxSize tx.withoutWitness)
    (hstack : txin.scriptWitness.length < 2 ^ 64) (hlt : ∀ item ∈ txin.scriptWitness, item.length < 2 ^ 64)
    (hlong : ¬ (txin.scriptWitness.length ≤ MAX_SIZE ∧ ∀ item ∈ txin.scriptWitness, item.length ≤ MAX_SIZE)) :
    Refuses (unserializeTransaction s) (tx.serialize s) := by
  have hwitness : tx.hasWitness = true := by
    have hne : txin.scriptWitness ≠ [] := by
      intro hempty
      rw [hempty] at hlong
      exact hlong ⟨zero_le _, fun item hmem => by cases hmem⟩
    simpa [CMutableTransaction.hasWitness, hvin] using hne
  have hmiddle := reads_inputsOutputs_extended (s := s) hfits hallow
  have hvin' : tx.withoutWitness.vin = [txin.withoutWitness] := by
    rw [CMutableTransaction.withoutWitness, hvin]
    rfl
  have hsame : serializeVector CTxIn.serialize tx.withoutWitness.vin = serializeVector CTxIn.serialize tx.vin := by
    rw [hvin', hvin]
    rfl
  have hvout : tx.withoutWitness.vout = tx.vout := rfl
  rw [hsame, hvin', hvout] at hmiddle
  have htail : Refuses (readFlagged s 1 [txin.withoutWitness])
      (tx.vin.flatMap (fun txin => serializeVector serializeBytes txin.scriptWitness)) := by
    have hwitnesses : Refuses (readWitnesses [txin.withoutWitness])
        (serializeVector serializeBytes txin.scriptWitness ++ []) := (refuses_stack hstack hlt hlong).bind _ []
    unfold readFlagged ByteStream.readFlagged
    rw [if_pos ⟨by decide, hallow⟩, hvin, flatMap_singleton]
    have h := hwitnesses.bind (fun vin => pure ((1 : UInt8) ^^^ 1, vin)) []
    rwa [append_nil, append_nil] at h
  have hread : Refuses (unserializeTransaction s)
      ((tx.rValue.data ++ tx.sValue.data) ++ (tx.rscriptSig.data ++ (tx.sscriptSig.data ++
        (serializeInt32 tx.nVersion ++ ((serializeVector CTxIn.serialize [] ++ ([1] ++
          (serializeVector CTxIn.serialize tx.vin ++ serializeVector CTxOut.serialize tx.vout))) ++
        (tx.vin.flatMap (fun txin => serializeVector serializeBytes txin.scriptWitness) ++
          serializeUInt32 tx.nLockTime)))))) := by
    refine Refuses.after ?_ (reads_values hs tx.rValue tx.sValue)
    refine Refuses.after ?_ (reads_blob tx.rscriptSig)
    refine Refuses.after ?_ (reads_blob tx.sscriptSig)
    refine Refuses.after ?_ (reads_int32 tx.nVersion)
    refine Refuses.after ?_ hmiddle
    exact htail.bind _ _
  unfold CMutableTransaction.serialize
  simpa only [hs, hallow, hwitness, Bool.false_eq_true, Bool.and_self, if_false, if_true,
    append_assoc] using hread

end Refusals

section Decoding

variable {sha256 : Bytes → Uint256} {α : Type}

lemma Refuses.decode {reader : Read α} {bytes : Bytes} (h : Refuses reader bytes) :
    Refuses (Decode.read reader) bytes := by
  intro rest
  obtain ⟨failure, hfailure⟩ := h rest
  refine ⟨.stream failure, ?_⟩
  unfold Decode.read
  rw [hfailure]
  rfl

lemma refuses_message {c : CBlockHeaderAndShortTxIDs sha256} {p : PrefilledTransaction sha256}
    {ps : List (PrefilledTransaction sha256)} (hshort : ∀ id ∈ c.shorttxids, id.toNat < 2 ^ 48)
    (hids : c.shorttxids.length ≤ MAX_SIZE) (hprefilled : c.prefilledtxn = p :: ps) (hps : ps.length < MAX_SIZE)
    (h : Refuses (unserializeTransaction networkStream) (p.tx.toCMutableTransaction.serialize networkStream)) :
    Refuses (decode sha256) c.serialize := by
  have hread : Reads (readVector readShortID)
      (serializeVector serializeShortID c.shorttxids) (c.shorttxids.map id) :=
    reads_vector hids (fun a ha => reads_shortID (hshort a ha))
  have hidx : p.index.toNat < 2 ^ 16 := p.index.toNat_lt
  have htx : Refuses (decodeTransaction sha256) (p.tx.toCMutableTransaction.serialize networkStream) := by
    rw [← append_nil (p.tx.toCMutableTransaction.serialize networkStream)]
    exact h.decode.bind _ []
  have hfirst : Refuses (decodePrefilled sha256) (serializePrefilled p) := by
    refine Refuses.after ?_ (reads_compactSize (hidx.le.trans (by decide))).decodes
    rw [if_neg (by omega)]
    have hall := htx.bind (fun tx => pure (⟨UInt16.ofNat p.index.toNat, tx⟩ : PrefilledTransaction sha256)) []
    rw [append_nil] at hall
    exact hall
  have hmany : Refuses (decodeMany (decodePrefilled sha256) c.prefilledtxn.length)
      (c.prefilledtxn.flatMap serializePrefilled) := by
    rw [hprefilled]
    exact hfirst.bind _ _
  have hcount : c.prefilledtxn.length ≤ MAX_SIZE := by
    rw [hprefilled]
    exact hps
  unfold serialize serializeVector at *
  rw [append_assoc, append_assoc]
  refine Refuses.after ?_ (reads_header c.header).decodes
  refine Refuses.after ?_ (reads_uInt64 c.nonce).decodes
  refine Refuses.after ?_ hread.decodes
  refine Refuses.after ?_ (reads_compactSize hcount).decodes
  have h := hmany.bind (fun prefilledtxn => pure (fillShortTxIDSelector
    ⟨0, 0, c.nonce, c.shorttxids.map id, prefilledtxn, c.header⟩)) []
  rwa [append_nil] at h

end Decoding

end MutableBitcoin
