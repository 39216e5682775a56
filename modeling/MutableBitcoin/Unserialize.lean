import MutableBitcoin.Lib.ExceptOk
import MutableBitcoin.Collision

/-!
# Reading transactions from a stream

The readers of `serialize.h` and `UnserializeTransaction`, which are templates over the stream. A reader takes
bytes from the front of the stream and throws if they do not suffice.
-/

namespace MutableBitcoin
open Lib List Option

/-- The exceptions of the readers. -/
inductive StreamFailure where
  | endOfData
  | nonCanonical
  | sizeTooLarge
  | unknownOptionalData
  | varIntTooLarge
  | ignoreNegative
  | ignoreEnd
deriving DecidableEq

/-- What a reader asks of its stream: the next bytes, and to throw. -/
class ByteStream (m : Type → Type) where
  bytes : ℕ → m Bytes
  throwStream {α : Type} : StreamFailure → m α

def MAX_SIZE : ℕ := 0x02000000

/-!
## Readers of any stream
-/

namespace ByteStream

variable {m : Type → Type} [Monad m] [ByteStream m]

def readBlob (width : ℕ) : m (BaseBlob width) := do
  let bytes ← bytes width
  if h : bytes.length = width then return ⟨bytes, h⟩ else throwStream .endOfData

/-- An unsigned number of `width` bytes, least significant byte first. -/
def readNat (width : ℕ) : m ℕ := do
  let bytes ← bytes width
  return leValue bytes

def readUInt8 : m UInt8 := do
  let n ← readNat 1
  return UInt8.ofNat n

def readUInt32 : m UInt32 := do
  let n ← readNat 4
  return UInt32.ofNat n

def readInt32 : m Int32 := do
  let n ← readUInt32
  return n.toInt32

def readInt64 : m Int64 := do
  let n ← readNat 8
  return (UInt64.ofNat n).toInt64

/-- A size and the least value of its form. -/
def readSize (width least : ℕ) : m ℕ := do
  let nSizeRet ← readNat width
  if nSizeRet < least then throwStream .nonCanonical else return nSizeRet

/-- The size behind the byte `chSize`. -/
def readSizeAfter (chSize : UInt8) : m ℕ :=
  if chSize < 253 then pure chSize.toNat
  else if chSize = 253 then readSize 2 253
  else if chSize = 254 then readSize 4 0x10000
  else readSize 8 0x100000000

/-- `ReadCompactSize`. -/
def readCompactSize : m ℕ := do
  let chSize ← readUInt8
  let nSizeRet ← readSizeAfter chSize
  if MAX_SIZE < nSizeRet then throwStream .sizeTooLarge else return nSizeRet

def readMany {α : Type} (unserialize : m α) : ℕ → m (List α)
  | 0 => pure []
  | n + 1 => do
    let a ← unserialize
    let v ← readMany unserialize n
    return a :: v

/-- A vector, its size in front. -/
def readVector {α : Type} (unserialize : m α) : m (List α) := do
  let nSize ← readCompactSize
  readMany unserialize nSize

def readByteVector : m Bytes := do
  let nSize ← readCompactSize
  bytes nSize

def readOutPoint : m COutPoint := do
  let hash ← readBlob 32
  let n ← readUInt32
  return ⟨hash, n⟩

def readTxIn : m CTxIn := do
  let prevout ← readOutPoint
  let scriptSig ← readByteVector
  let nSequence ← readUInt32
  return ⟨prevout, scriptSig, nSequence, []⟩

def readTxOut : m CTxOut := do
  let nValue ← readInt64
  let scriptPubKey ← readByteVector
  return ⟨nValue, scriptPubKey⟩

/-- The stack of every input. -/
def readWitnesses : List CTxIn → m (List CTxIn)
  | [] => pure []
  | txin :: vin => do
    let stack ← readVector readByteVector
    let vin ← readWitnesses vin
    return { txin with scriptWitness := stack } :: vin

/-- The inputs and outputs, with the flags of the extended format. -/
def readInputsOutputs (s : SerStream) : m (UInt8 × List CTxIn × List CTxOut) := do
  let vin ← readVector readTxIn
  if vin.isEmpty && s.fAllowWitness then
    let flags ← readUInt8
    if flags ≠ 0 then
      let vin ← readVector readTxIn
      let vout ← readVector readTxOut
      return (flags, vin, vout)
    else return (flags, [], [])
  else
    let vout ← readVector readTxOut
    return (0, vin, vout)

/-- A stream for hashing leaves the two numbers out. -/
def readValues (s : SerStream) : m (Uint1024 × Uint1024) :=
  if s.forHash then pure (BaseBlob.null 128, BaseBlob.null 128)
  else do
    let rValue ← readBlob 128
    let sValue ← readBlob 128
    return (rValue, sValue)

/-- The witness, if the first flag says so. -/
def readFlagged (s : SerStream) (flags : UInt8) (vin : List CTxIn) : m (UInt8 × List CTxIn) :=
  if flags &&& 1 ≠ 0 ∧ s.fAllowWitness then do
    let vin ← readWitnesses vin
    return (flags ^^^ 1, vin)
  else pure (flags, vin)

/-- `UnserializeTransaction` into a new transaction. -/
def unserializeTransaction (s : SerStream) : m CMutableTransaction := do
  let (rValue, sValue) ← readValues s
  let rscriptSig ← readBlob 128
  let sscriptSig ← readBlob 128
  let nVersion ← readInt32
  let (flags, vin, vout) ← readInputsOutputs s
  let (flags, vin) ← readFlagged s flags vin
  if flags ≠ 0 then throwStream .unknownOptionalData
  else
    let nLockTime ← readUInt32
    return ⟨rValue, sValue, rscriptSig, sscriptSig, nVersion, vin, vout, nLockTime⟩

end ByteStream

/-!
## Readers of a `CDataStream`
-/

abbrev Read := StateT Bytes (Except StreamFailure)

/-- `CDataStream::read`. -/
def readBytes (nSize : ℕ) : Read Bytes := fun vch =>
  if nSize ≤ vch.length then .ok (vch.take nSize, vch.drop nSize) else .error .endOfData

instance : ByteStream Read := ⟨readBytes, throw⟩

def readBlob (width : ℕ) : Read (BaseBlob width) := ByteStream.readBlob width

def readNat (width : ℕ) : Read ℕ := ByteStream.readNat width

def readUInt8 : Read UInt8 := ByteStream.readUInt8

def readUInt32 : Read UInt32 := ByteStream.readUInt32

def readInt32 : Read Int32 := ByteStream.readInt32

def readInt64 : Read Int64 := ByteStream.readInt64

def readSize (width least : ℕ) : Read ℕ := ByteStream.readSize width least

def readSizeAfter (chSize : UInt8) : Read ℕ := ByteStream.readSizeAfter chSize

def readCompactSize : Read ℕ := ByteStream.readCompactSize

def readMany {α : Type} (unserialize : Read α) : ℕ → Read (List α) := ByteStream.readMany unserialize

def readVector {α : Type} (unserialize : Read α) : Read (List α) := ByteStream.readVector unserialize

def readByteVector : Read Bytes := ByteStream.readByteVector

def readOutPoint : Read COutPoint := ByteStream.readOutPoint

def readTxIn : Read CTxIn := ByteStream.readTxIn

def readTxOut : Read CTxOut := ByteStream.readTxOut

def readWitnesses : List CTxIn → Read (List CTxIn) := ByteStream.readWitnesses

def readInputsOutputs (s : SerStream) : Read (UInt8 × List CTxIn × List CTxOut) :=
  ByteStream.readInputsOutputs s

def readValues (s : SerStream) : Read (Uint1024 × Uint1024) := ByteStream.readValues s

def readFlagged (s : SerStream) (flags : UInt8) (vin : List CTxIn) : Read (UInt8 × List CTxIn) :=
  ByteStream.readFlagged s flags vin

def unserializeTransaction (s : SerStream) : Read CMutableTransaction := ByteStream.unserializeTransaction s

section Inversion

variable {α β : Type} {vch rest : Bytes}

lemma read_bind_eq_ok_iff {x : Read α} {f : α → Read β} {b : β} :
    (x >>= f) vch = .ok (b, rest) ↔ ∃ a mid, x vch = .ok (a, mid) ∧ f a mid = .ok (b, rest) := by
  have hbind : (x >>= f) vch = x vch >>= fun q => f q.1 q.2 := rfl
  rw [hbind, bind_eq_ok_iff]
  exact Prod.exists

lemma read_pure_eq_ok_iff {a b : α} : (pure a : Read α) vch = .ok (b, rest) ↔ a = b ∧ vch = rest := by
  show Except.ok (a, vch) = Except.ok (b, rest) ↔ _
  rw [Except.ok.injEq, Prod.mk.injEq]

lemma readBytes_eq_ok_iff {nSize : ℕ} {bytes : Bytes} :
    readBytes nSize vch = .ok (bytes, rest) ↔ bytes.length = nSize ∧ vch = bytes ++ rest := by
  unfold readBytes
  constructor
  · intro h
    split_ifs at h with hle
    obtain ⟨rfl, rfl⟩ := Prod.mk.inj (Except.ok.inj h)
    exact ⟨length_take_of_le hle, (take_append_drop _ _).symm⟩
  · rintro ⟨rfl, rfl⟩
    simp

lemma readBlob_eq_ok_iff {width : ℕ} {blob : BaseBlob width} :
    readBlob width vch = .ok (blob, rest) ↔ vch = blob.data ++ rest := by
  have hbind : readBlob width = readBytes width >>= fun bytes =>
      if h : bytes.length = width then pure ⟨bytes, h⟩ else throw .endOfData := rfl
  rw [hbind, read_bind_eq_ok_iff]
  constructor
  · rintro ⟨bytes, mid, hbytes, h⟩
    obtain ⟨hlen, rfl⟩ := readBytes_eq_ok_iff.mp hbytes
    rw [dif_pos hlen] at h
    obtain ⟨rfl, rfl⟩ := read_pure_eq_ok_iff.mp h
    rfl
  · rintro rfl
    refine ⟨blob.data, rest, readBytes_eq_ok_iff.mpr ⟨blob.length_data, rfl⟩, ?_⟩
    rw [dif_pos blob.length_data]
    rfl

lemma readNat_eq_ok_iff {width n : ℕ} :
    readNat width vch = .ok (n, rest) ↔
      ∃ bytes : Bytes, bytes.length = width ∧ vch = bytes ++ rest ∧ leValue bytes = n := by
  have hbind : readNat width = readBytes width >>= fun bytes => pure (leValue bytes) := rfl
  simp only [hbind, read_bind_eq_ok_iff, readBytes_eq_ok_iff, read_pure_eq_ok_iff]
  constructor
  · rintro ⟨bytes, mid, ⟨hlen, hvch⟩, hn, rfl⟩
    exact ⟨bytes, hlen, hvch, hn⟩
  · rintro ⟨bytes, hlen, hvch, hn⟩
    exact ⟨bytes, rest, ⟨hlen, hvch⟩, hn, rfl⟩

lemma readUInt8_eq_ok_iff {b : UInt8} : readUInt8 vch = .ok (b, rest) ↔ vch = b :: rest := by
  have hbind : readUInt8 = readNat 1 >>= fun n => pure (UInt8.ofNat n) := rfl
  simp only [hbind, read_bind_eq_ok_iff, readNat_eq_ok_iff, read_pure_eq_ok_iff]
  constructor
  · rintro ⟨n, mid, ⟨bytes, hlen, rfl, rfl⟩, rfl, rfl⟩
    obtain ⟨c, rfl⟩ := length_eq_one_iff.mp hlen
    simp
  · rintro rfl
    exact ⟨b.toNat, rest, ⟨[b], rfl, rfl, by simp⟩, by simp, rfl⟩

lemma split_of_readInt32 {a : Int32} (h : readInt32 vch = .ok (a, rest)) :
    ∃ bytes : Bytes, bytes.length = 4 ∧ vch = bytes ++ rest := by
  obtain ⟨u, mid, hu, h⟩ := read_bind_eq_ok_iff.mp h
  obtain ⟨n, mid', hn, hu⟩ := read_bind_eq_ok_iff.mp hu
  obtain ⟨-, rfl⟩ := read_pure_eq_ok_iff.mp h
  obtain ⟨-, rfl⟩ := read_pure_eq_ok_iff.mp hu
  obtain ⟨bytes, hlen, hvch, -⟩ := readNat_eq_ok_iff.mp hn
  exact ⟨bytes, hlen, hvch⟩

lemma le_of_readSize {width least n : ℕ} (h : readSize width least vch = .ok (n, rest)) : least ≤ n := by
  obtain ⟨nSizeRet, mid, -, h⟩ := read_bind_eq_ok_iff.mp h
  by_cases hlt : nSizeRet < least
  · rw [if_pos hlt] at h
    cases h
  · rw [if_neg hlt] at h
    obtain ⟨rfl, -⟩ := read_pure_eq_ok_iff.mp h
    exact not_lt.mp hlt

lemma readCompactSize_zero {n : ℕ} (h : readCompactSize vch = .ok (n, rest)) :
    (n = 0 ↔ vch[0]? = some 0) ∧ (n = 0 → rest = vch.drop 1) := by
  obtain ⟨chSize, mid, hch, htail⟩ := read_bind_eq_ok_iff.mp h
  obtain ⟨nSizeRet, mid', hsize, hmax⟩ := read_bind_eq_ok_iff.mp htail
  obtain rfl := readUInt8_eq_ok_iff.mp hch
  obtain ⟨rfl, rfl⟩ : nSizeRet = n ∧ mid' = rest := by
    by_cases hlt : MAX_SIZE < nSizeRet
    · rw [if_pos hlt] at hmax
      cases hmax
    · rw [if_neg hlt] at hmax
      exact read_pure_eq_ok_iff.mp hmax
  have hlong : ∀ width least, 0 < least → chSize ≠ 0 →
      readSize width least mid = .ok (nSizeRet, mid') →
      (nSizeRet = 0 ↔ (chSize :: mid)[0]? = some 0) ∧ (nSizeRet = 0 → mid' = (chSize :: mid).drop 1) := by
    intro width least hleast hne hread
    have := le_of_readSize hread
    have hn : nSizeRet ≠ 0 := by omega
    simp [hn, hne]
  unfold ByteStream.readSizeAfter at hsize
  split_ifs at hsize with h253 h253' h254
  · obtain ⟨rfl, rfl⟩ := read_pure_eq_ok_iff.mp hsize
    simp [← UInt8.toNat_inj]
  · exact hlong _ _ (by decide) (by rw [h253']; decide) hsize
  · exact hlong _ _ (by decide) (by rw [h254]; decide) hsize
  · exact hlong _ _ (by decide) (fun h0 => h253 (by rw [h0]; decide)) hsize

lemma length_readMany {read : Read α} {n : ℕ} {v : List α} (h : readMany read n vch = .ok (v, rest)) :
    v.length = n := by
  induction n generalizing vch v rest with
  | zero =>
    obtain ⟨rfl, -⟩ := read_pure_eq_ok_iff.mp h
    rfl
  | succ n ih =>
    obtain ⟨a, mid, -, h⟩ := read_bind_eq_ok_iff.mp h
    obtain ⟨v', mid', hmany, h⟩ := read_bind_eq_ok_iff.mp h
    obtain ⟨rfl, -⟩ := read_pure_eq_ok_iff.mp h
    rw [length_cons, ih hmany]

lemma readVector_nil {read : Read α} {v : List α} (h : readVector read vch = .ok (v, rest)) :
    (v = [] ↔ vch[0]? = some 0) ∧ (v = [] → rest = vch.drop 1) := by
  obtain ⟨n, mid, hsize, hmany⟩ := read_bind_eq_ok_iff.mp h
  obtain ⟨hzero, hrest⟩ := readCompactSize_zero hsize
  have hlen := length_readMany hmany
  have hnil : v = [] ↔ n = 0 := by rw [← length_eq_zero_iff, hlen]
  refine ⟨hnil.trans hzero, ?_⟩
  intro hv
  obtain rfl := hnil.mp hv
  obtain ⟨-, rfl⟩ := read_pure_eq_ok_iff.mp hmany
  exact hrest rfl

lemma length_readWitnesses {vin vin' : List CTxIn} (h : readWitnesses vin vch = .ok (vin', rest)) :
    vin'.length = vin.length := by
  induction vin generalizing vch vin' rest with
  | nil =>
    obtain ⟨rfl, -⟩ := read_pure_eq_ok_iff.mp h
    rfl
  | cons txin vin ih =>
    obtain ⟨stack, mid, -, h⟩ := read_bind_eq_ok_iff.mp h
    obtain ⟨vin₁, mid', hrest, h⟩ := read_bind_eq_ok_iff.mp h
    obtain ⟨rfl, -⟩ := read_pure_eq_ok_iff.mp h
    rw [length_cons, length_cons, ih hrest]

lemma readInputsOutputs_nil {s : SerStream} {flags : UInt8} {vin : List CTxIn} {vout : List CTxOut}
    (h : readInputsOutputs s vch = .ok ((flags, vin, vout), rest)) :
    vin = [] ↔ vch[0]? = some 0 ∧ (s.fAllowWitness = true → vch[1]? = some 0 ∨ vch[2]? = some 0) := by
  obtain ⟨vin₁, mid, hvin, h⟩ := read_bind_eq_ok_iff.mp h
  obtain ⟨hzero, hrest⟩ := readVector_nil hvin
  by_cases hdummy : (vin₁.isEmpty && s.fAllowWitness) = true
  · rw [if_pos hdummy] at h
    rw [Bool.and_eq_true, List.isEmpty_iff] at hdummy
    obtain ⟨hnil, hallow⟩ := hdummy
    obtain ⟨flags₁, mid₁, hflags, h⟩ := read_bind_eq_ok_iff.mp h
    have hflags := readUInt8_eq_ok_iff.mp hflags
    rw [hrest hnil] at hflags
    have hfirst : vch[0]? = some 0 := hzero.mp hnil
    have hsecond : vch[1]? = some flags₁ := by
      have hget := congrArg (·[0]?) hflags
      rwa [getElem?_drop] at hget
    have hmid₁ : mid₁ = vch.drop 2 := by simpa using (congrArg (List.drop 1) hflags).symm
    by_cases hne : flags₁ ≠ 0
    · rw [if_pos hne] at h
      obtain ⟨vin₂, mid₂, hvin₂, h⟩ := read_bind_eq_ok_iff.mp h
      obtain ⟨vout₂, mid₃, -, h⟩ := read_bind_eq_ok_iff.mp h
      obtain ⟨heq, -⟩ := read_pure_eq_ok_iff.mp h
      obtain ⟨rfl, rfl, rfl⟩ : flags₁ = flags ∧ vin₂ = vin ∧ vout₂ = vout := by simpa using heq
      have hthird := (readVector_nil hvin₂).1
      rw [hmid₁, getElem?_drop] at hthird
      simp [hthird, hfirst, hsecond, hallow, hne]
    · rw [if_neg hne] at h
      obtain ⟨heq, -⟩ := read_pure_eq_ok_iff.mp h
      obtain ⟨rfl, rfl, rfl⟩ : flags₁ = flags ∧ [] = vin ∧ [] = vout := by simpa using heq
      simp [hfirst, hsecond, not_not.mp hne]
  · rw [if_neg hdummy] at h
    obtain ⟨vout₂, mid₃, -, h⟩ := read_bind_eq_ok_iff.mp h
    obtain ⟨heq, -⟩ := read_pure_eq_ok_iff.mp h
    obtain ⟨rfl, rfl, rfl⟩ : 0 = flags ∧ vin₁ = vin ∧ vout₂ = vout := by simpa using heq
    rw [Bool.and_eq_true, List.isEmpty_iff, not_and, Bool.not_eq_true] at hdummy
    constructor
    · intro hnil
      refine ⟨hzero.mp hnil, ?_⟩
      rw [hdummy hnil]
      rintro ⟨⟩
    · intro hfirst
      exact hzero.mpr hfirst.1

lemma readFlagged_nil {s : SerStream} {flags flags' : UInt8} {vin vin' : List CTxIn}
    (h : readFlagged s flags vin vch = .ok ((flags', vin'), rest)) : vin' = [] ↔ vin = [] := by
  unfold readFlagged ByteStream.readFlagged at h
  split_ifs at h
  · obtain ⟨vin₁, mid, hread, h⟩ := read_bind_eq_ok_iff.mp h
    obtain ⟨heq, -⟩ := read_pure_eq_ok_iff.mp h
    obtain ⟨-, rfl⟩ := Prod.mk.inj heq
    rw [← length_eq_zero_iff, length_readWitnesses hread, length_eq_zero_iff]
  · obtain ⟨heq, -⟩ := read_pure_eq_ok_iff.mp h
    obtain ⟨-, rfl⟩ := Prod.mk.inj heq
    rfl

lemma readValues_network {nVersion : ℕ} {rValue sValue : Uint1024}
    (h : readValues ⟨SER_NETWORK, nVersion⟩ vch = .ok ((rValue, sValue), rest)) :
    vch = rValue.data ++ (sValue.data ++ rest) := by
  have hforHash : (⟨SER_NETWORK, nVersion⟩ : SerStream).forHash = false := by
    simp [SerStream.forHash, SER_NETWORK, SER_GETHASH]
  unfold readValues ByteStream.readValues at h
  rw [hforHash, if_neg Bool.false_ne_true] at h
  obtain ⟨r, mid, hr, h⟩ := read_bind_eq_ok_iff.mp h
  obtain ⟨s, mid', hs, h⟩ := read_bind_eq_ok_iff.mp h
  obtain ⟨heq, rfl⟩ := read_pure_eq_ok_iff.mp h
  obtain ⟨rfl, rfl⟩ := Prod.mk.inj heq
  rw [← readBlob_eq_ok_iff.mp hs]
  exact readBlob_eq_ok_iff.mp hr

lemma unserializeTransaction_network {nVersion : ℕ} {tx : CMutableTransaction}
    (h : unserializeTransaction ⟨SER_NETWORK, nVersion⟩ vch = .ok (tx, rest)) :
    ∃ version mid : Bytes, version.length = 4 ∧
      vch = tx.rValue.data ++ (tx.sValue.data ++ (tx.rscriptSig.data ++ (tx.sscriptSig.data ++
        (version ++ mid)))) ∧
      (tx.vin = [] ↔ mid[0]? = some 0 ∧
        ((⟨SER_NETWORK, nVersion⟩ : SerStream).fAllowWitness = true →
          mid[1]? = some 0 ∨ mid[2]? = some 0)) := by
  obtain ⟨⟨rValue, sValue⟩, mid₁, hvalues, h⟩ := read_bind_eq_ok_iff.mp h
  obtain ⟨rscriptSig, mid₂, hr, h⟩ := read_bind_eq_ok_iff.mp h
  obtain ⟨sscriptSig, mid₃, hs, h⟩ := read_bind_eq_ok_iff.mp h
  obtain ⟨n, mid₄, hn, h⟩ := read_bind_eq_ok_iff.mp h
  obtain ⟨⟨flags, vin, vout⟩, mid₅, hinout, h⟩ := read_bind_eq_ok_iff.mp h
  obtain ⟨⟨flags', vin'⟩, mid₆, hflagged, h⟩ := read_bind_eq_ok_iff.mp h
  obtain ⟨version, hlen, hversion⟩ := split_of_readInt32 hn
  have hvin := (readFlagged_nil hflagged).trans (readInputsOutputs_nil hinout)
  dsimp only at h
  split_ifs at h
  · cases h
  · obtain ⟨nLockTime, mid₇, -, h⟩ := read_bind_eq_ok_iff.mp h
    obtain ⟨rfl, -⟩ := read_pure_eq_ok_iff.mp h
    refine ⟨version, mid₄, hlen, ?_, hvin⟩
    rw [← hversion, ← readBlob_eq_ok_iff.mp hs, ← readBlob_eq_ok_iff.mp hr]
    exact readValues_network hvalues

end Inversion

section Hashing

variable {sha256 : Bytes → Uint256} {tx : CMutableTransaction} {vch rest : Bytes} {nVersion : ℕ}

/-- No hash of the transaction aborts. -/
structure HashesComplete (sha256 : Bytes → Uint256) (tx : CMutableTransaction) : Prop where
  computeHash : (computeHash sha256 tx).isSome
  getWitnessHash : (getWitnessHash sha256 tx).isSome
  signatureHash : ∀ scriptCode nIn nHashType amount cache,
    (signatureHash sha256 scriptCode tx nIn nHashType amount .SIGVERSION_BASE cache 0).isSome

lemma chamHash_isSome_iff {bitHash : Uint256} {r s : Uint1024} :
    (chamHash sha256 bitHash r s).isSome ↔ (r.value : ℤ) < cChamHash.q ∧ (s.value : ℤ) < cChamHash.q := by
  constructor
  · intro h
    obtain ⟨hash, hhash⟩ := isSome_iff_exists.mp h
    exact lt_q_of_chamHash hhash
  · rintro ⟨hr, hs⟩
    rw [chamHash_eq sha256 bitHash hr hs]
    exact isSome_some

lemma computeHash_isSome_iff :
    (computeHash sha256 tx).isSome ↔ (tx.rValue.value : ℤ) < cChamHash.q ∧ (tx.sValue.value : ℤ) < cChamHash.q :=
  chamHash_isSome_iff

lemma getWitnessHash_isSome_iff :
    (getWitnessHash sha256 tx).isSome ↔
      (tx.rValue.value : ℤ) < cChamHash.q ∧ (tx.sValue.value : ℤ) < cChamHash.q := by
  unfold getWitnessHash
  split_ifs
  · exact computeHash_isSome_iff
  · exact chamHash_isSome_iff

lemma signatureHash_isSome_iff {scriptCode : CScript} {nIn : ℕ} {nHashType : Int32} {amount : CAmount}
    {cache : Option PrecomputedTransactionData} :
    (signatureHash sha256 scriptCode tx nIn nHashType amount .SIGVERSION_BASE cache 0).isSome ↔
      tx.vin.length ≤ nIn ∨ (baseHashType nHashType = SIGHASH_SINGLE ∧ tx.vout.length ≤ nIn) ∨
        ((tx.rscriptSig.value : ℤ) < cChamHash.q ∧ (tx.sscriptSig.value : ℤ) < cChamHash.q) := by
  have hbase : ¬ (0 = 0 ∧ SigVersion.SIGVERSION_BASE = .SIGVERSION_WITNESS_V0) := by decide
  unfold signatureHash
  rw [if_neg hbase]
  by_cases hin : tx.vin.length ≤ nIn
  · simp [hin]
  by_cases hout : baseHashType nHashType = SIGHASH_SINGLE ∧ tx.vout.length ≤ nIn
  · simp [hout]
  rw [if_neg (by simp [hin]), if_neg (by simpa using hout), if_neg (by decide)]
  have hcham : (chamHash sha256 (hash256 sha256 (tx.vout.flatMap CTxOut.serialize)) tx.rscriptSig
      tx.sscriptSig).isSome ↔ _ := chamHash_isSome_iff
  rw [or_iff_right hin, or_iff_right hout, ← hcham]
  cases chamHash sha256 (hash256 sha256 (tx.vout.flatMap CTxOut.serialize)) tx.rscriptSig tx.sscriptSig with
  | none => simp
  | some chamHashtxo => simp

/-- The number in the `i`-th field of 128 bytes. -/
def wireNumber (vch : Bytes) (i : ℕ) : ℕ := leValue ((vch.drop (128 * i)).take 128)

/-- The bytes where the empty vector of inputs stands. -/
def WireNoInput (s : SerStream) (vch : Bytes) : Prop :=
  vch[516]? = some 0 ∧ (s.fAllowWitness = true → vch[517]? = some 0 ∨ vch[518]? = some 0)

/-- The numbers that are hashed are below `q`. -/
structure WireRandomnessBelow (s : SerStream) (vch : Bytes) : Prop where
  rValue : (wireNumber vch 0 : ℤ) < cChamHash.q
  sValue : (wireNumber vch 1 : ℤ) < cChamHash.q
  outputs : WireNoInput s vch ∨
    (wireNumber vch 2 : ℤ) < cChamHash.q ∧ (wireNumber vch 3 : ℤ) < cChamHash.q

lemma wireNumber_eq {i : ℕ} {blob : Uint1024} (front behind : Bytes) (hfront : front.length = 128 * i)
    (hvch : vch = front ++ (blob.data ++ behind)) : wireNumber vch i = blob.value := by
  rw [wireNumber, hvch, drop_left' hfront, take_left' blob.length_data]
  rfl

lemma wireRandomnessBelow_iff
    (h : unserializeTransaction ⟨SER_NETWORK, nVersion⟩ vch = .ok (tx, rest)) :
    WireRandomnessBelow ⟨SER_NETWORK, nVersion⟩ vch ↔
      ((tx.rValue.value : ℤ) < cChamHash.q ∧ (tx.sValue.value : ℤ) < cChamHash.q) ∧
        (tx.vin = [] ∨ (tx.rscriptSig.value : ℤ) < cChamHash.q ∧ (tx.sscriptSig.value : ℤ) < cChamHash.q) := by
  obtain ⟨version, mid, hversion, hvch, hvin⟩ := unserializeTransaction_network h
  have hr : wireNumber vch 0 = tx.rValue.value := wireNumber_eq [] _ rfl hvch
  have hs : wireNumber vch 1 = tx.sValue.value :=
    wireNumber_eq tx.rValue.data _ tx.rValue.length_data hvch
  have hr' : wireNumber vch 2 = tx.rscriptSig.value :=
    wireNumber_eq (tx.rValue.data ++ tx.sValue.data) _ (by simp [BaseBlob.length_data])
      (by rw [hvch, append_assoc])
  have hs' : wireNumber vch 3 = tx.sscriptSig.value :=
    wireNumber_eq (tx.rValue.data ++ tx.sValue.data ++ tx.rscriptSig.data) _
      (by simp [BaseBlob.length_data]) (by rw [hvch, append_assoc, append_assoc])
  have hnone : WireNoInput ⟨SER_NETWORK, nVersion⟩ vch ↔ tx.vin = [] := by
    have hfront : (tx.rValue.data ++ tx.sValue.data ++ tx.rscriptSig.data ++ tx.sscriptSig.data ++
        version).length = 516 := by
      simp [BaseBlob.length_data, hversion]
    have hbyte : ∀ i, vch[516 + i]? = mid[i]? := by
      intro i
      rw [hvch, ← hfront, ← append_assoc, ← append_assoc, ← append_assoc,
        ← append_assoc, getElem?_append_right (Nat.le_add_right _ _), Nat.add_sub_cancel_left]
    rw [hvin]
    unfold WireNoInput
    rw [hbyte 0, hbyte 1, hbyte 2]
  rw [← hr, ← hs, ← hr', ← hs', ← hnone]
  constructor
  · intro hbelow
    exact ⟨⟨hbelow.rValue, hbelow.sValue⟩, hbelow.outputs⟩
  · rintro ⟨⟨hr, hs⟩, houtputs⟩
    exact ⟨hr, hs, houtputs⟩

/-- The hashes of a transaction from the network complete exactly if the numbers in its first fields
are below `q`; the second pair only matters if there are inputs. -/
theorem hashesComplete_iff (sha256 : Bytes → Uint256) (nVersion : ℕ) (vch rest : Bytes)
    (tx : CMutableTransaction)
    (h : unserializeTransaction ⟨SER_NETWORK, nVersion⟩ vch = .ok (tx, rest)) :
    HashesComplete sha256 tx ↔ WireRandomnessBelow ⟨SER_NETWORK, nVersion⟩ vch := by
  rw [wireRandomnessBelow_iff h]
  constructor
  · intro hcomplete
    refine ⟨computeHash_isSome_iff.mp hcomplete.computeHash, ?_⟩
    have hfirst := signatureHash_isSome_iff.mp (hcomplete.signatureHash [] 0 1 0 none)
    have hsingle : baseHashType 1 ≠ SIGHASH_SINGLE := by decide
    rw [Nat.le_zero, length_eq_zero_iff] at hfirst
    simpa [hsingle] using hfirst
  · rintro ⟨hid, houtputs⟩
    refine ⟨computeHash_isSome_iff.mpr hid, getWitnessHash_isSome_iff.mpr hid, ?_⟩
    intro scriptCode nIn nHashType amount cache
    rw [signatureHash_isSome_iff]
    obtain hvin | hbelow := houtputs
    · left
      rw [hvin]
      exact Nat.zero_le _
    · exact Or.inr (Or.inr hbelow)

def wireTransaction (rValue : Uint1024) : CMutableTransaction :=
  ⟨rValue, BaseBlob.null 128, BaseBlob.null 128, BaseBlob.null 128, 2,
    [⟨COutPoint.null, [], SEQUENCE_FINAL, []⟩], [⟨0, [Opcode.OP_RETURN]⟩], 0⟩

/-- A randomness of 128 bytes `ff`. -/
def largeValue : Uint1024 := ⟨List.replicate 128 0xff, length_replicate⟩

def wireTail : Bytes :=
  [2, 0, 0, 0] ++ [1] ++ List.replicate 32 0 ++ List.replicate 4 0xff ++ [0] ++ List.replicate 4 0xff ++
    [1] ++ List.replicate 8 0 ++ [1, Opcode.OP_RETURN] ++ List.replicate 4 0

lemma serialize_wireTransaction (rValue : Uint1024) :
    (wireTransaction rValue).serialize ⟨SER_NETWORK, PROTOCOL_VERSION⟩ =
      rValue.data ++ ((BaseBlob.null 128).data ++ ((BaseBlob.null 128).data ++
        ((BaseBlob.null 128).data ++ wireTail))) := by
  have hforHash : (⟨SER_NETWORK, PROTOCOL_VERSION⟩ : SerStream).forHash = false := by decide
  have hflags : ((⟨SER_NETWORK, PROTOCOL_VERSION⟩ : SerStream).fAllowWitness &&
      (wireTransaction rValue).hasWitness) = false := rfl
  have htail : serializeInt32 2 ++ (serializeVector CTxIn.serialize (wireTransaction rValue).vin ++
      (serializeVector CTxOut.serialize (wireTransaction rValue).vout ++ serializeUInt32 0)) = wireTail := rfl
  unfold CMutableTransaction.serialize
  dsimp only
  rw [hforHash, hflags, ← htail]
  simp only [Bool.false_eq_true, if_false, append_assoc, append_nil]
  simp only [wireTransaction]

lemma unserialize_wireTransaction (rValue : Uint1024) :
    unserializeTransaction ⟨SER_NETWORK, PROTOCOL_VERSION⟩
      ((wireTransaction rValue).serialize ⟨SER_NETWORK, PROTOCOL_VERSION⟩) = .ok (wireTransaction rValue, []) := by
  have hforHash : (⟨SER_NETWORK, PROTOCOL_VERSION⟩ : SerStream).forHash = false := by decide
  have hvalues (rest : Bytes) : readValues ⟨SER_NETWORK, PROTOCOL_VERSION⟩
      (rValue.data ++ ((BaseBlob.null 128).data ++ rest)) = .ok ((rValue, BaseBlob.null 128), rest) := by
    unfold readValues ByteStream.readValues
    rw [hforHash, if_neg Bool.false_ne_true]
    exact read_bind_eq_ok_iff.mpr ⟨_, _, readBlob_eq_ok_iff.mpr rfl,
      read_bind_eq_ok_iff.mpr ⟨_, _, readBlob_eq_ok_iff.mpr rfl, rfl⟩⟩
  rw [serialize_wireTransaction]
  refine read_bind_eq_ok_iff.mpr ⟨_, _, hvalues _, ?_⟩
  refine read_bind_eq_ok_iff.mpr ⟨_, _, readBlob_eq_ok_iff.mpr rfl, ?_⟩
  refine read_bind_eq_ok_iff.mpr ⟨_, _, readBlob_eq_ok_iff.mpr rfl, ?_⟩
  rfl

theorem hashesComplete_iff_wireTransaction :
    HashesComplete cSHA256 (wireTransaction (BaseBlob.null 128)) ↔
      WireRandomnessBelow ⟨SER_NETWORK, PROTOCOL_VERSION⟩
        ((wireTransaction (BaseBlob.null 128)).serialize ⟨SER_NETWORK, PROTOCOL_VERSION⟩) :=
  hashesComplete_iff cSHA256 PROTOCOL_VERSION _ [] _ (unserialize_wireTransaction _)

/-- A message with a large number in its first field is read and aborts the node. -/
theorem computeHash_largeValue :
    unserializeTransaction ⟨SER_NETWORK, PROTOCOL_VERSION⟩
        ((wireTransaction largeValue).serialize ⟨SER_NETWORK, PROTOCOL_VERSION⟩) =
      .ok (wireTransaction largeValue, []) ∧
    computeHash cSHA256 (wireTransaction largeValue) = none ∧
    ¬ HashesComplete cSHA256 (wireTransaction largeValue) := by
  have hlarge : ¬ ((largeValue.value : ℤ) < cChamHash.q) := by decide +kernel
  have hnone : ¬ (computeHash cSHA256 (wireTransaction largeValue)).isSome := by
    rw [computeHash_isSome_iff]
    exact fun h => hlarge h.1
  refine ⟨unserialize_wireTransaction _, ?_, fun h => hnone h.computeHash⟩
  rwa [Bool.not_eq_true, isSome_eq_false_iff, isNone_iff_eq_none] at hnone

end Hashing

end MutableBitcoin
