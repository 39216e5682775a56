import MutableBitcoin.BlockFile
import MutableBitcoin.BufferedFile
import MutableBitcoin.CompactMessage
import MutableBitcoin.Lib.StreamReaders

/-!
# Reading a block piece by piece

The readers of a block as programs that ask for their bytes one piece after another, so that they can run on a buffered
file. On a list of bytes they are the readers of the other modules.
-/

namespace MutableBitcoin
open Lib

namespace Streamed

abbrev Reader := ReadProgram UInt8 DecodeFailure

instance : ByteStream Reader := ⟨.get, fun failure => .fail (.stream failure)⟩

/-- The constructor of `CTransaction` computes the hash as soon as the transaction is read. -/
def readTransaction (sha256 : Bytes → Uint256) : Reader (CTransaction sha256) := do
  let tx ← ByteStream.unserializeTransaction diskStream
  match CTransaction.make sha256 tx with
  | none => .fail .hashAborts
  | some tx => return tx

def readBlock (sha256 : Bytes → Uint256) : Reader (CBlock sha256) := do
  let header ← ByteStream.readHeader
  let vtx ← ByteStream.readVector (readTransaction sha256)
  return ⟨header, vtx, false⟩

end Streamed

section OnBytes

variable (sha256 : Bytes → Uint256)

def decodeDiskTransaction : Decode (CTransaction sha256) := do
  let tx ← Decode.read (unserializeTransaction diskStream)
  match CTransaction.make sha256 tx with
  | none => throw .hashAborts
  | some tx => return tx

def decodeDiskTransactions : Decode (List (CTransaction sha256)) := do
  let nSize ← Decode.read readCompactSize
  decodeMany (decodeDiskTransaction sha256) nSize

def CBlock.decode : Decode (CBlock sha256) := do
  let header ← Decode.read readHeader
  let vtx ← decodeDiskTransactions sha256
  return ⟨header, vtx, false⟩

variable {sha256}

lemma decodes_diskTransaction {tx : CTransaction sha256} (hvin : tx.vin ≠ []) (hfits : FitsMaxSize tx.toCMutableTransaction) :
    Decodes (decodeDiskTransaction sha256) (tx.toCMutableTransaction.serialize diskStream) tx := by
  have hread : Reads (unserializeTransaction diskStream) (tx.toCMutableTransaction.serialize diskStream)
      tx.toCMutableTransaction := by
    intro rest
    have hallow : diskStream.fAllowWitness = true := by decide
    rw [unserializeTransaction_serialize diskStream _ rest (by decide) hvin hfits, hallow, if_pos rfl]
  rw [← List.append_nil (tx.toCMutableTransaction.serialize diskStream)]
  refine hread.decodes.bind ?_
  rw [make_toCMutableTransaction]
  exact decodes_pure tx

lemma CBlock.decodes {block : CBlock sha256} (hvin : ∀ tx ∈ block.vtx, tx.vin ≠ [])
    (hfits : ∀ tx ∈ block.vtx, FitsMaxSize tx.toCMutableTransaction) (hcount : block.vtx.length ≤ MAX_SIZE) :
    Decodes (CBlock.decode sha256) (block.serialize diskStream) { block with fChecked := false } := by
  have hvtx : Decodes (decodeDiskTransactions sha256)
      (serializeVector (fun tx => tx.toCMutableTransaction.serialize diskStream) block.vtx) block.vtx :=
    (reads_compactSize hcount).decodes.bind (decodes_many fun tx htx => decodes_diskTransaction (hvin tx htx) (hfits tx htx))
  exact (reads_header block.toCBlockHeader).decodes.bind (hvtx.map fun vtx => CBlock.mk block.toCBlockHeader vtx false)

end OnBytes

namespace Streamed

variable {α β : Type}

/-- The program does on a list what the decoder does. -/
def Agrees (x : Reader α) (decode : Decode α) : Prop :=
  ∀ vch, x.onList (.stream .endOfData) vch = decode vch

lemma Agrees.bind {x : Reader α} {f : α → Reader β} {decode : Decode α} {g : α → Decode β} (hx : Agrees x decode)
    (hf : ∀ a, Agrees (f a) (g a)) : Agrees (x >>= f) (decode >>= g) := by
  intro vch
  have hbind : (decode >>= g) vch = (decode vch).bind (fun r => g r.1 r.2) := rfl
  rw [ReadProgram.onList_bind, hx, hbind]
  refine congrArg _ (funext (fun r => hf r.1 r.2))

lemma agrees_pure (a : α) : Agrees (pure a) (pure a) := fun _ => rfl

lemma agrees_fail (e : DecodeFailure) : Agrees (.fail e : Reader α) (throw e) := fun _ => rfl

abbrev AgreesRead (x : Reader α) (read : Read α) : Prop := Agrees x (Decode.read read)

lemma decodeRead_bind (read : Read α) (f : α → Read β) :
    Decode.read (read >>= f) = Decode.read read >>= fun a => Decode.read (f a) := by
  funext vch
  show ((read vch).bind (fun r => f r.1 r.2)).mapError _ = ((read vch).mapError _).bind (fun r => (f r.1 r.2).mapError _)
  cases read vch with
  | error e => rfl
  | ok r => rfl

lemma AgreesRead.bind {x : Reader α} {f : α → Reader β} {read : Read α} {g : α → Read β} (hx : AgreesRead x read)
    (hf : ∀ a, AgreesRead (f a) (g a)) : AgreesRead (x >>= f) (read >>= g) := by
  unfold AgreesRead
  rw [decodeRead_bind]
  exact Agrees.bind hx hf

lemma agreesRead_pure (a : α) : AgreesRead (pure a) (pure a) := fun _ => rfl

lemma AgreesRead.ite {p : Prop} [Decidable p] {x y : Reader α} {read read' : Read α} (hx : AgreesRead x read)
    (hy : AgreesRead y read') : AgreesRead (if p then x else y) (if p then read else read') := by
  split_ifs with h
  · exact hx
  · exact hy

lemma AgreesRead.map {x : Reader α} {read : Read α} (hx : AgreesRead x read) (f : α → β) :
    AgreesRead (x >>= fun a => pure (f a)) (read >>= fun a => pure (f a)) :=
  hx.bind (fun a => agreesRead_pure (f a))

lemma agrees_get (nSize : ℕ) : AgreesRead (.get nSize) (readBytes nSize) := by
  intro vch
  rw [ReadProgram.onList_get, Decode.read, readBytes]
  split_ifs with h
  · rfl
  · rfl

lemma agreesRead_throw (e : StreamFailure) : AgreesRead (ByteStream.throwStream e : Reader α) (throw e) := fun _ => rfl

lemma agrees_readBlob (width : ℕ) : AgreesRead (ByteStream.readBlob width) (readBlob width) := by
  refine (agrees_get width).bind fun bytes => ?_
  split_ifs with h
  · exact agreesRead_pure _
  · exact agreesRead_throw _

lemma agrees_readNat (width : ℕ) : AgreesRead (ByteStream.readNat width) (readNat width) :=
  (agrees_get width).map leValue

lemma agrees_readUInt8 : AgreesRead ByteStream.readUInt8 readUInt8 := (agrees_readNat 1).map UInt8.ofNat

lemma agrees_readUInt32 : AgreesRead ByteStream.readUInt32 readUInt32 := (agrees_readNat 4).map UInt32.ofNat

lemma agrees_readInt32 : AgreesRead ByteStream.readInt32 readInt32 := agrees_readUInt32.map UInt32.toInt32

lemma agrees_readInt64 : AgreesRead ByteStream.readInt64 readInt64 :=
  (agrees_readNat 8).map fun n => (UInt64.ofNat n).toInt64

lemma agrees_readSize (width least : ℕ) : AgreesRead (ByteStream.readSize width least) (readSize width least) :=
  (agrees_readNat width).bind fun nSizeRet => (agreesRead_throw _).ite (agreesRead_pure nSizeRet)

lemma agrees_readSizeAfter (chSize : UInt8) : AgreesRead (ByteStream.readSizeAfter chSize) (readSizeAfter chSize) :=
  (agreesRead_pure _).ite ((agrees_readSize _ _).ite ((agrees_readSize _ _).ite (agrees_readSize _ _)))

lemma agrees_readCompactSize : AgreesRead ByteStream.readCompactSize readCompactSize :=
  agrees_readUInt8.bind fun chSize => (agrees_readSizeAfter chSize).bind fun nSizeRet =>
    (agreesRead_throw _).ite (agreesRead_pure nSizeRet)

lemma agrees_readMany {x : Reader α} {read : Read α} (hx : AgreesRead x read) (n : ℕ) :
    AgreesRead (ByteStream.readMany x n) (readMany read n) := by
  induction n with
  | zero => exact agreesRead_pure []
  | succ n ih => exact hx.bind fun a => ih.map (a :: ·)

lemma agrees_readVector {x : Reader α} {read : Read α} (hx : AgreesRead x read) :
    AgreesRead (ByteStream.readVector x) (readVector read) :=
  agrees_readCompactSize.bind fun nSize => agrees_readMany hx nSize

lemma agrees_readByteVector : AgreesRead ByteStream.readByteVector readByteVector :=
  agrees_readCompactSize.bind agrees_get

lemma agrees_readTxIn : AgreesRead ByteStream.readTxIn readTxIn := by
  have hprevout : AgreesRead ByteStream.readOutPoint readOutPoint :=
    (agrees_readBlob 32).bind fun _ => agrees_readUInt32.map _
  exact hprevout.bind fun _ => agrees_readByteVector.bind fun _ => agrees_readUInt32.map _

lemma agrees_readTxOut : AgreesRead ByteStream.readTxOut readTxOut :=
  agrees_readInt64.bind fun _ => agrees_readByteVector.map _

lemma agrees_readWitnesses (vin : List CTxIn) : AgreesRead (ByteStream.readWitnesses vin) (readWitnesses vin) := by
  induction vin with
  | nil => exact agreesRead_pure []
  | cons txin vin ih => exact (agrees_readVector agrees_readByteVector).bind fun _ => ih.map _

lemma agrees_readInputsOutputs (s : SerStream) : AgreesRead (ByteStream.readInputsOutputs s) (readInputsOutputs s) := by
  refine (agrees_readVector agrees_readTxIn).bind fun vin => AgreesRead.ite ?_ ?_
  · refine agrees_readUInt8.bind fun flags => AgreesRead.ite ?_ (agreesRead_pure _)
    exact (agrees_readVector agrees_readTxIn).bind fun _ => (agrees_readVector agrees_readTxOut).map _
  · exact (agrees_readVector agrees_readTxOut).map _

lemma agrees_unserializeTransaction (s : SerStream) :
    AgreesRead (ByteStream.unserializeTransaction s) (unserializeTransaction s) := by
  have hvalues : AgreesRead (ByteStream.readValues s) (readValues s) :=
    (agreesRead_pure _).ite ((agrees_readBlob 128).bind fun _ => (agrees_readBlob 128).map _)
  have hflagged : ∀ flags vin, AgreesRead (ByteStream.readFlagged s flags vin) (readFlagged s flags vin) :=
    fun flags vin => ((agrees_readWitnesses vin).map _).ite (agreesRead_pure _)
  refine hvalues.bind fun _ => (agrees_readBlob 128).bind fun _ => (agrees_readBlob 128).bind fun _ => ?_
  refine agrees_readInt32.bind fun _ => (agrees_readInputsOutputs s).bind fun _ => (hflagged _ _).bind fun _ => ?_
  exact (agreesRead_throw _).ite (agrees_readUInt32.map _)

variable {sha256 : Bytes → Uint256}

lemma agrees_readTransaction : Agrees (readTransaction sha256) (decodeDiskTransaction sha256) := by
  refine Agrees.bind (agrees_unserializeTransaction diskStream) fun tx => ?_
  cases CTransaction.make sha256 tx with
  | none => exact agrees_fail _
  | some tx => exact agrees_pure tx

lemma agrees_readBlock : Agrees (readBlock sha256) (CBlock.decode sha256) := by
  have hheader : AgreesRead ByteStream.readHeader readHeader := by
    refine agrees_readInt32.bind fun _ => (agrees_readBlob 32).bind fun _ => (agrees_readBlob 32).bind fun _ => ?_
    refine agrees_readUInt32.bind fun _ => agrees_readUInt32.bind fun _ => agrees_readUInt32.bind fun _ => ?_
    exact (agrees_readBlob 32).map _
  have hmany : ∀ n, Agrees (ByteStream.readMany (readTransaction sha256) n)
      (decodeMany (decodeDiskTransaction sha256) n) := by
    intro n
    induction n with
    | zero => exact agrees_pure []
    | succ n ih => exact agrees_readTransaction.bind fun a => ih.bind fun _ => agrees_pure _
  have hvtx : Agrees (ByteStream.readVector (readTransaction sha256)) (decodeDiskTransactions sha256) :=
    Agrees.bind agrees_readCompactSize hmany
  exact Agrees.bind hheader fun _ => hvtx.bind fun _ => agrees_pure _

section Requests

/-- No request is above `MAX_SIZE`. -/
abbrev Modest (x : Reader α) : Prop := x.Asks MAX_SIZE (fun _ => True)

lemma Modest.map {x : Reader α} (hx : Modest x) (f : α → β) : Modest (x >>= fun a => pure (f a)) :=
  hx.andThen fun _ => trivial

lemma modest_readBlob {width : ℕ} (h : width ≤ MAX_SIZE) : Modest (ByteStream.readBlob width) := by
  refine (ReadProgram.asks_get h).andThen fun bytes => ?_
  split_ifs with hlen
  · exact trivial
  · exact trivial

lemma modest_readNat {width : ℕ} (h : width ≤ MAX_SIZE) : Modest (ByteStream.readNat width) :=
  Modest.map (ReadProgram.asks_get h) leValue

lemma modest_readUInt8 : Modest ByteStream.readUInt8 := (modest_readNat (by decide)).map UInt8.ofNat

lemma modest_readUInt32 : Modest ByteStream.readUInt32 := (modest_readNat (by decide)).map UInt32.ofNat

lemma modest_readInt32 : Modest ByteStream.readInt32 := modest_readUInt32.map UInt32.toInt32

lemma modest_readInt64 : Modest ByteStream.readInt64 :=
  (modest_readNat (by decide)).map fun n => (UInt64.ofNat n).toInt64

lemma modest_readSizeAfter (chSize : UInt8) : Modest (ByteStream.readSizeAfter chSize) := by
  have hsize : ∀ {width least : ℕ}, width ≤ MAX_SIZE → Modest (ByteStream.readSize width least) := by
    intro width least h
    exact (modest_readNat h).andThen fun _ => ReadProgram.Asks.ite (fun _ => trivial) (fun _ => trivial)
  refine ReadProgram.Asks.ite (fun _ => trivial) fun _ => ReadProgram.Asks.ite (fun _ => hsize (by decide)) fun _ => ?_
  exact ReadProgram.Asks.ite (fun _ => hsize (by decide)) (fun _ => hsize (by decide))

lemma asks_readCompactSize : (ByteStream.readCompactSize : Reader ℕ).Asks MAX_SIZE (· ≤ MAX_SIZE) :=
  modest_readUInt8.andThen fun chSize => (modest_readSizeAfter chSize).andThen fun _ =>
    ReadProgram.Asks.ite (fun _ => trivial) (fun h => Nat.le_of_not_lt h)

lemma modest_readMany {x : Reader α} (hx : Modest x) (n : ℕ) : Modest (ByteStream.readMany x n) := by
  induction n with
  | zero => exact trivial
  | succ n ih => exact hx.andThen fun a => Modest.map ih (a :: ·)

lemma modest_readVector {x : Reader α} (hx : Modest x) : Modest (ByteStream.readVector x) :=
  asks_readCompactSize.bind fun nSize _ => modest_readMany hx nSize

lemma modest_readByteVector : Modest ByteStream.readByteVector :=
  asks_readCompactSize.bind fun _ h => ReadProgram.asks_get h

lemma modest_readTxIn : Modest ByteStream.readTxIn := by
  have hprevout : Modest ByteStream.readOutPoint :=
    (modest_readBlob (by decide)).andThen fun _ => modest_readUInt32.map _
  exact hprevout.andThen fun _ => modest_readByteVector.andThen fun _ => modest_readUInt32.map _

lemma modest_readTxOut : Modest ByteStream.readTxOut := modest_readInt64.andThen fun _ => modest_readByteVector.map _

lemma modest_readWitnesses (vin : List CTxIn) : Modest (ByteStream.readWitnesses vin) := by
  induction vin with
  | nil => exact trivial
  | cons txin vin ih => exact (modest_readVector modest_readByteVector).andThen fun _ => Modest.map ih _

lemma modest_readInputsOutputs (s : SerStream) : Modest (ByteStream.readInputsOutputs s) := by
  refine (modest_readVector modest_readTxIn).andThen fun vin => ReadProgram.Asks.ite (fun _ => ?_) (fun _ => ?_)
  · refine modest_readUInt8.andThen fun flags => ReadProgram.Asks.ite (fun _ => ?_) (fun _ => trivial)
    exact (modest_readVector modest_readTxIn).andThen fun _ => (modest_readVector modest_readTxOut).map _
  · exact (modest_readVector modest_readTxOut).map _

lemma modest_unserializeTransaction (s : SerStream) : Modest (ByteStream.unserializeTransaction s) := by
  have hblob : Modest (ByteStream.readBlob 128) := modest_readBlob (by decide)
  have hvalues : Modest (ByteStream.readValues s) :=
    ReadProgram.Asks.ite (fun _ => trivial) (fun _ => hblob.andThen fun _ => hblob.map _)
  have hflagged : ∀ flags vin, Modest (ByteStream.readFlagged s flags vin) := fun flags vin =>
    ReadProgram.Asks.ite (fun _ => (modest_readWitnesses vin).map _) (fun _ => trivial)
  refine hvalues.andThen fun _ => hblob.andThen fun _ => hblob.andThen fun _ => modest_readInt32.andThen fun _ => ?_
  refine (modest_readInputsOutputs s).andThen fun _ => (hflagged _ _).andThen fun _ => ?_
  exact ReadProgram.Asks.ite (fun _ => trivial) (fun _ => modest_readUInt32.map _)

lemma modest_readBlock : Modest (readBlock sha256) := by
  have hblob : Modest (ByteStream.readBlob 32) := modest_readBlob (by decide)
  have hheader : Modest ByteStream.readHeader := by
    refine modest_readInt32.andThen fun _ => hblob.andThen fun _ => hblob.andThen fun _ => modest_readUInt32.andThen fun _ => ?_
    exact modest_readUInt32.andThen fun _ => modest_readUInt32.andThen fun _ => hblob.map _
  have htransaction : Modest (readTransaction sha256) := by
    refine (modest_unserializeTransaction diskStream).andThen fun tx => ?_
    cases CTransaction.make sha256 tx with
    | none => exact trivial
    | some tx => exact trivial
  exact hheader.andThen fun _ => (modest_readVector htransaction).map _

end Requests

end Streamed

end MutableBitcoin
