import MutableBitcoin.CompactBlock
import MutableBitcoin.Lib.SipHash

/-!
# SipHash

`CSipHasher`, `SipHashUint256` and `SipHashUint256Extra` of `hash.cpp` compute SipHash-2-4. The
hasher counts the bytes in an `int`, whose overflow is undefined.
-/

namespace MutableBitcoin
open Lib List SipHash Option

/-- `count` starts at zero and only grows, so a value of `int` is a number below 2³¹. -/
structure CSipHasher where
  v : SipState
  tmp : UInt64
  count : ℕ

namespace CSipHasher

def make (k0 k1 : UInt64) : CSipHasher where
  v := ⟨0x736f6d6570736575 ^^^ k0, 0x646f72616e646f6d ^^^ k1, 0x6c7967656e657261 ^^^ k0,
    0x7465646279746573 ^^^ k1⟩
  tmp := 0
  count := 0

/-- An addition to an `int`, undefined where it overflows. -/
def addCount (count n : ℕ) : Option ℕ := if count + n < 2 ^ 31 then some (count + n) else none

/-- `Write(uint64_t data)` with its assertion. -/
def writeWord (h : CSipHasher) (data : UInt64) : Option CSipHasher :=
  if h.count % 8 = 0 then do
    let count ← addCount h.count 8
    return ⟨h.v.absorb data, h.tmp, count⟩
  else none

/-- One turn of the loop of `Write(const unsigned char* data, size_t size)`. -/
def writeByte (h : CSipHasher) (data : UInt8) : Option CSipHasher := do
  let t := h.tmp ||| data.toUInt64 <<< UInt64.ofNat (8 * (h.count % 8))
  let c ← addCount h.count 1
  if c &&& 7 = 0 then return ⟨h.v.absorb t, 0, c⟩
  else return ⟨h.v, t, c⟩

def writeBytes (h : CSipHasher) (data : Bytes) : Option CSipHasher := data.foldlM writeByte h

/-- `CSipHasher::Finalize`. -/
def finalize (h : CSipHasher) : UInt64 :=
  let t := h.tmp ||| UInt64.ofNat h.count <<< 56
  let v := h.v.absorb t
  let v := { v with v2 := v.v2 ^^^ 0xff }
  let v := v.sipRound.sipRound.sipRound.sipRound
  v.v0 ^^^ v.v1 ^^^ v.v2 ^^^ v.v3

end CSipHasher

/-- `SipHashUint256Extra`. -/
def sipHashUint256Extra (k0 k1 : UInt64) (val : Uint256) (extra : UInt32) : UInt64 :=
  let v : SipState := ⟨0x736f6d6570736575 ^^^ k0, 0x646f72616e646f6d ^^^ k1, 0x6c7967656e657261 ^^^ k0,
    0x7465646279746573 ^^^ k1⟩
  let v := v.absorb (val.getUint64 0) |>.absorb (val.getUint64 1) |>.absorb (val.getUint64 2)
    |>.absorb (val.getUint64 3) |>.absorb ((36 : UInt64) <<< 56 ||| extra.toUInt64)
  let v := { v with v2 := v.v2 ^^^ 0xff }
  let v := v.sipRound.sipRound.sipRound.sipRound
  v.v0 ^^^ v.v1 ^^^ v.v2 ^^^ v.v3

/-- What is passed to one call of `Write`. -/
inductive SipChunk where
  | bytes (data : Bytes)
  | word (data : UInt64)

namespace SipChunk

def toBytes : SipChunk → Bytes
  | bytes data => data
  | word data => leBytes 8 data.toNat

def write (h : CSipHasher) : SipChunk → Option CSipHasher
  | bytes data => h.writeBytes data
  | word data => h.writeWord data

/-- Words are written at multiples of eight bytes, from `count` bytes on. -/
def Aligned : ℕ → List SipChunk → Prop
  | _, [] => True
  | count, bytes data :: chunks => Aligned (count + data.length) chunks
  | count, word _ :: chunks => count % 8 = 0 ∧ Aligned (count + 8) chunks

end SipChunk

def sipHashChunks (k0 k1 : UInt64) (chunks : List SipChunk) : Option UInt64 := do
  let h ← chunks.foldlM SipChunk.write (CSipHasher.make k0 k1)
  return h.finalize

/-! ### The state of the hasher -/

def SipState.toState (v : SipState) : SipHash.State := ⟨v.v0, v.v1, v.v2, v.v3⟩

lemma SipState.toState_absorb (v : SipState) (bs : Bytes) :
    (v.absorb (word bs)).toState = compress 2 v.toState bs := rfl

lemma SipState.finish_eq (v : SipState) :
    (let v := { v with v2 := v.v2 ^^^ 0xff }
    let v := v.sipRound.sipRound.sipRound.sipRound
    v.v0 ^^^ v.v1 ^^^ v.v2 ^^^ v.v3) = finish 4 v.toState := rfl

lemma toState_make (k0 k1 : UInt64) : (CSipHasher.make k0 k1).v.toState = initial k0 k1 := by
  simp only [CSipHasher.make, SipState.toState, initial, UInt64.xor_comm]

abbrev sipAbsorb (k0 k1 : UInt64) (m : Bytes) : SipHash.State × Bytes :=
  absorb 8 (compress 2) (initial k0 k1) m

namespace CSipHasher

/-- A hasher to which exactly these bytes have been written: the full words are in the state and the
rest is in `tmp`. -/
structure Holds (k0 k1 : UInt64) (h : CSipHasher) (m : Bytes) : Prop where
  v : h.v.toState = (sipAbsorb k0 k1 m).1
  tmp : h.tmp = word (sipAbsorb k0 k1 m).2
  count : h.count = m.length

variable {k0 k1 : UInt64} {h : CSipHasher} {m : Bytes}

lemma holds_make : Holds k0 k1 (make k0 k1) [] := by
  refine ⟨?_, ?_, rfl⟩
  · rw [sipAbsorb, absorb_nil]
    exact toState_make k0 k1
  · rw [sipAbsorb, absorb_nil]
    rfl

lemma length_rest (k0 k1 : UInt64) (m : Bytes) : (sipAbsorb k0 k1 m).2.length = m.length % 8 :=
  length_absorb_snd _ _

lemma addCount_of_lt {count n : ℕ} (h : count + n < 2 ^ 31) : addCount count n = some (count + n) :=
  if_pos h

lemma addCount_of_le {count n : ℕ} (h : 2 ^ 31 ≤ count + n) : addCount count n = none :=
  if_neg (Nat.not_lt.mpr h)

lemma writeByte_spec (hm : Holds k0 k1 h m) (b : UInt8) (hlt : m.length + 1 < 2 ^ 31) :
    ∃ h', writeByte h b = some h' ∧ Holds k0 k1 h' (m ++ [b]) := by
  have hrest := length_rest k0 k1 m
  have happend : sipAbsorb k0 k1 (m ++ [b]) =
      absorb 8 (compress 2) (sipAbsorb k0 k1 m).1 ((sipAbsorb k0 k1 m).2 ++ [b]) :=
    absorb_append (by norm_num) _ _ _
  have hword : h.tmp ||| b.toUInt64 <<< UInt64.ofNat (8 * (h.count % 8)) =
      word ((sipAbsorb k0 k1 m).2 ++ [b]) := by
    rw [word_append (by omega), hm.tmp, hrest, hm.count]
  have hmask : m.length + 1 &&& 7 = (m.length + 1) % 8 := Nat.and_two_pow_sub_one_eq_mod _ 3
  unfold writeByte
  dsimp only
  rw [hword, hm.count, addCount_of_lt hlt, bind_eq_bind, bind_some, hmask]
  by_cases hfull : (m.length + 1) % 8 = 0
  · have hlength : ((sipAbsorb k0 k1 m).2 ++ [b]).length = 8 := by
      rw [length_append, length_singleton, hrest]
      omega
    rw [absorb_block (by norm_num) hlength] at happend
    rw [if_pos hfull]
    refine ⟨_, rfl, ?_, ?_, by rw [length_append, length_singleton]⟩
    · rw [happend, SipState.toState_absorb, hm.v]
    · rw [happend]
      rfl
  · have hlength : ((sipAbsorb k0 k1 m).2 ++ [b]).length < 8 := by
      rw [length_append, length_singleton, hrest]
      omega
    rw [absorb_of_lt hlength] at happend
    rw [if_neg hfull]
    exact ⟨_, rfl, by rw [happend, hm.v], by rw [happend], by rw [length_append, length_singleton]⟩

lemma writeByte_eq_none (hm : Holds k0 k1 h m) (b : UInt8) (hge : 2 ^ 31 ≤ m.length + 1) :
    writeByte h b = none := by
  unfold writeByte
  dsimp only
  rw [hm.count, addCount_of_le hge]
  rfl

lemma writeBytes_spec (hm : Holds k0 k1 h m) (data : Bytes) :
    (m.length + data.length < 2 ^ 31 → ∃ h', writeBytes h data = some h' ∧ Holds k0 k1 h' (m ++ data)) ∧
    (m.length < 2 ^ 31 → 2 ^ 31 ≤ m.length + data.length → writeBytes h data = none) := by
  induction data generalizing h m with
  | nil =>
    rw [append_nil, length_nil]
    exact ⟨fun _ => ⟨h, rfl, hm⟩, fun hlt hge => by omega⟩
  | cons b data ih =>
    have hcons : m ++ b :: data = (m ++ [b]) ++ data := by rw [append_assoc, singleton_append]
    have hlength : (m ++ [b]).length = m.length + 1 := length_append
    rw [writeBytes, foldlM_cons, length_cons, hcons]
    by_cases hlt : m.length + 1 < 2 ^ 31
    · obtain ⟨h', hb, hm'⟩ := writeByte_spec hm b hlt
      obtain ⟨hsome, hnone⟩ := ih hm'
      rw [hlength] at hsome hnone
      rw [hb, bind_eq_bind, bind_some]
      exact ⟨fun hsum => hsome (by omega), fun _ hsum => hnone hlt (by omega)⟩
    · rw [writeByte_eq_none hm b (by omega)]
      exact ⟨fun hsum => absurd hsum (by omega), fun _ _ => rfl⟩

lemma writeWord_spec (hm : Holds k0 k1 h m) (halign : m.length % 8 = 0) (data : UInt64) :
    (m.length + 8 < 2 ^ 31 →
      ∃ h', writeWord h data = some h' ∧ Holds k0 k1 h' (m ++ leBytes 8 data.toNat)) ∧
    (2 ^ 31 ≤ m.length + 8 → writeWord h data = none) := by
  have hrest : (sipAbsorb k0 k1 m).2 = [] :=
    length_eq_zero_iff.mp (by rw [length_rest, halign])
  have happend : sipAbsorb k0 k1 (m ++ leBytes 8 data.toNat) =
      (compress 2 (sipAbsorb k0 k1 m).1 (leBytes 8 data.toNat), []) := by
    rw [sipAbsorb, absorb_append (by norm_num), ← sipAbsorb, hrest, nil_append,
      absorb_block (by norm_num) (length_leBytes 8 _)]
  unfold writeWord
  rw [hm.count, if_pos halign]
  constructor
  · intro hlt
    rw [addCount_of_lt hlt]
    refine ⟨_, rfl, ?_, ?_, by rw [length_append, length_leBytes]⟩
    · rw [happend, ← hm.v, ← SipState.toState_absorb, word_leBytes]
    · rw [happend, hm.tmp, hrest]
  · intro hge
    rw [addCount_of_le hge]
    rfl

lemma finalize_eq (hm : Holds k0 k1 h m) : h.finalize = hash 2 4 k0 k1 m := by
  have hrest := length_rest k0 k1 m
  have hlength : ((sipAbsorb k0 k1 m).2 ++ List.replicate (7 - m.length % 8) 0).length = 7 := by
    rw [length_append, length_replicate, hrest]
    omega
  have hlow : (UInt8.ofNat m.length).toUInt64 <<< UInt64.ofNat (8 * 7) = UInt64.ofNat m.length <<< 56 := by
    have hfifty : (UInt64.ofNat (8 * 7)).toNat % 64 = 56 := by decide
    have hfifty' : (56 : UInt64).toNat % 64 = 56 := by decide
    apply UInt64.toNat_inj.mp
    rw [UInt64.toNat_shiftLeft, UInt64.toNat_shiftLeft, hfifty, hfifty', UInt8.toNat_toUInt64,
      UInt8.toNat_ofNat', UInt64.toNat_ofNat', Nat.shiftLeft_eq, Nat.shiftLeft_eq]
    omega
  have hword : h.tmp ||| UInt64.ofNat h.count <<< 56 =
      word ((sipAbsorb k0 k1 m).2 ++
        (List.replicate (7 - m.length % 8) 0 ++ [UInt8.ofNat m.length])) := by
    rw [← append_assoc, word_append (by omega), word_append_zeros, hlength, hlow,
      hm.tmp, hm.count]
  rw [finalize, hword, hash_eq, ← hm.v]
  exact (SipState.finish_eq _).trans (congrArg (finish 4) (SipState.toState_absorb _ _))

end CSipHasher

open CSipHasher

section Chunks

variable {k0 k1 : UInt64}

lemma foldlM_write_spec (chunks : List SipChunk) {h : CSipHasher} {m : Bytes} (hm : CSipHasher.Holds k0 k1 h m)
    (halign : SipChunk.Aligned m.length chunks) (hlt : m.length < 2 ^ 31) :
    let total := m.length + (chunks.flatMap SipChunk.toBytes).length
    (total < 2 ^ 31 → ∃ h', chunks.foldlM SipChunk.write h = some h' ∧
      CSipHasher.Holds k0 k1 h' (m ++ chunks.flatMap SipChunk.toBytes)) ∧
    (2 ^ 31 ≤ total → chunks.foldlM SipChunk.write h = none) := by
  dsimp only
  induction chunks generalizing h m with
  | nil =>
    rw [flatMap_nil, append_nil, length_nil]
    exact ⟨fun _ => ⟨h, rfl, hm⟩, fun hge => by omega⟩
  | cons chunk chunks ih =>
    have hwrite : (m.length + chunk.toBytes.length < 2 ^ 31 →
          ∃ h', SipChunk.write h chunk = some h' ∧ CSipHasher.Holds k0 k1 h' (m ++ chunk.toBytes)) ∧
        (2 ^ 31 ≤ m.length + chunk.toBytes.length → SipChunk.write h chunk = none) := by
      cases chunk with
      | bytes data => exact ⟨(writeBytes_spec hm data).1, (writeBytes_spec hm data).2 hlt⟩
      | word data =>
        have hlength : (SipChunk.word data).toBytes.length = 8 := length_leBytes 8 _
        rw [hlength]
        exact writeWord_spec hm halign.1 data
    have hrest : SipChunk.Aligned (m ++ chunk.toBytes).length chunks := by
      rw [length_append]
      cases chunk with
      | bytes data => exact halign
      | word data =>
        have hlength : (SipChunk.word data).toBytes.length = 8 := length_leBytes 8 _
        rw [hlength]
        exact halign.2
    rw [flatMap_cons, length_append, foldlM_cons]
    by_cases hfits : m.length + chunk.toBytes.length < 2 ^ 31
    · obtain ⟨h', hsome, hm'⟩ := hwrite.1 hfits
      obtain ⟨hall, hnone⟩ := ih hm' hrest (by rwa [length_append])
      rw [length_append] at hall hnone
      rw [hsome, bind_eq_bind, bind_some, ← append_assoc]
      exact ⟨fun hsum => hall (by omega), fun hsum => hnone (by omega)⟩
    · rw [hwrite.2 (by omega)]
      exact ⟨fun hsum => absurd hsum (by omega), fun _ => rfl⟩

lemma sipHashChunks_eq_iff (chunks : List SipChunk) (halign : SipChunk.Aligned 0 chunks) :
    sipHashChunks k0 k1 chunks = some (hash 2 4 k0 k1 (chunks.flatMap SipChunk.toBytes)) ↔
      (chunks.flatMap SipChunk.toBytes).length < 2 ^ 31 := by
  have hspec := @foldlM_write_spec k0 k1 chunks _ _ holds_make halign (by norm_num)
  dsimp only at hspec
  rw [length_nil, Nat.zero_add, nil_append] at hspec
  obtain ⟨hsome, hnone⟩ := hspec
  constructor
  · intro heq
    by_contra hge
    rw [sipHashChunks, hnone (by omega)] at heq
    cases heq
  · intro hlt
    obtain ⟨h', hfold, hm⟩ := hsome hlt
    rw [sipHashChunks, hfold, ← finalize_eq hm]
    rfl

end Chunks

section Unrolled

variable (k0 k1 : UInt64) (val : Uint256)

lemma sipAbsorb_uint256 (tail : Bytes) (h : tail.length < 8) :
    sipAbsorb k0 k1 (val.data ++ tail) =
      (((make k0 k1).v.absorb (val.getUint64 0) |>.absorb (val.getUint64 1) |>.absorb (val.getUint64 2)
        |>.absorb (val.getUint64 3)).toState, tail) := by
  have hdrop : ∀ i, (val.data.drop (i * 8)).drop 8 = val.data.drop ((i + 1) * 8) := by
    intro i
    rw [drop_drop, Nat.succ_mul]
  have hword : ∀ (v : SipState) (i : ℕ), compress 2 v.toState ((val.data.drop (i * 8)).take 8) =
      (v.absorb (val.getUint64 i)).toState := fun v i => rfl
  have hzero : val.data = val.data.drop (0 * 8) := by rw [Nat.zero_mul, drop_zero]
  have hblocks : takeBlocks 8 (compress 2) 4 (initial k0 k1) val.data =
      ((make k0 k1).v.absorb (val.getUint64 0) |>.absorb (val.getUint64 1) |>.absorb (val.getUint64 2)
        |>.absorb (val.getUint64 3)).toState := by
    rw [hzero, ← toState_make, takeBlocks, hword, hdrop, takeBlocks, hword, hdrop, takeBlocks, hword, hdrop,
      takeBlocks, hword, takeBlocks]
  have hfull : absorb 8 (compress 2) (initial k0 k1) val.data =
      (takeBlocks 8 (compress 2) 4 (initial k0 k1) val.data, []) :=
    absorb_of_length_eq (by norm_num) val.length_data _
  rw [sipAbsorb, absorb_append (by norm_num), hfull, hblocks, nil_append, absorb_of_lt h]

lemma sipHashUint256_eq : sipHashUint256 k0 k1 val = hash 2 4 k0 k1 val.data := by
  have habsorb := sipAbsorb_uint256 k0 k1 val [] (by norm_num)
  have hlast : word (List.replicate (7 - 32 % 8) 0 ++ [UInt8.ofNat 32]) = (4 : UInt64) <<< 59 := by
    decide +kernel
  rw [append_nil, sipAbsorb] at habsorb
  rw [hash_eq, val.length_data, habsorb, nil_append, ← SipState.toState_absorb, hlast]
  exact SipState.finish_eq _

lemma sipHashUint256Extra_eq (extra : UInt32) : sipHashUint256Extra k0 k1 val extra =
    hash 2 4 k0 k1 (val.data ++ leBytes 4 extra.toNat) := by
  have hlength : (val.data ++ leBytes 4 extra.toNat).length = 36 := by
    rw [length_append, val.length_data, length_leBytes]
  have habsorb := sipAbsorb_uint256 k0 k1 val (leBytes 4 extra.toNat)
    (by rw [length_leBytes]; norm_num)
  have hextra : word (leBytes 4 extra.toNat) = extra.toUInt64 := by
    rw [word, leValue_leBytes extra.toNat_lt]
    exact UInt64.toNat_inj.mp (by rw [UInt64.toNat_ofNat', UInt32.toNat_toUInt64, Nat.mod_eq_of_lt
      (extra.toNat_lt.trans (by norm_num))])
  have hthree : (leBytes 4 extra.toNat ++ List.replicate 3 0).length = 7 := by
    rw [length_append, length_leBytes, length_replicate]
  have hshift : (UInt8.ofNat 36).toUInt64 <<< UInt64.ofNat (8 * 7) = (36 : UInt64) <<< 56 := by decide
  have hlast : word (leBytes 4 extra.toNat ++ (List.replicate (7 - 36 % 8) 0 ++ [UInt8.ofNat 36])) =
      (36 : UInt64) <<< 56 ||| extra.toUInt64 := by
    rw [← append_assoc, show 7 - 36 % 8 = 3 from rfl, word_append (by omega),
      word_append_zeros, hextra, hthree, hshift, UInt64.or_comm]
  rw [sipAbsorb] at habsorb
  rw [hash_eq, hlength, habsorb, ← SipState.toState_absorb, hlast]
  exact SipState.finish_eq _

end Unrolled

/-- Every way of writing a string computes its SipHash-2-4 exactly if the string has fewer than 2³¹
bytes, and the versions for a `uint256` compute that of its bytes and of the number behind them. -/
theorem sipHash_versions_agree (k0 k1 : UInt64) (chunks : List SipChunk) (val : Uint256) (extra : UInt32) :
    (SipChunk.Aligned 0 chunks →
      (sipHashChunks k0 k1 chunks = some (hash 2 4 k0 k1 (chunks.flatMap SipChunk.toBytes)) ↔
        (chunks.flatMap SipChunk.toBytes).length < 2 ^ 31)) ∧
    sipHashUint256 k0 k1 val = hash 2 4 k0 k1 val.data ∧
    sipHashUint256Extra k0 k1 val extra = hash 2 4 k0 k1 (val.data ++ leBytes 4 extra.toNat) :=
  ⟨sipHashChunks_eq_iff chunks, sipHashUint256_eq k0 k1 val, sipHashUint256Extra_eq k0 k1 val extra⟩

theorem sipHash_versions_agree_word :
    sipHashChunks 1 2 [.word 3, .bytes [4, 5], .bytes []] =
      some (hash 2 4 1 2 [3, 0, 0, 0, 0, 0, 0, 0, 4, 5]) :=
  ((sipHash_versions_agree 1 2 [.word 3, .bytes [4, 5], .bytes []] (BaseBlob.null 32) 0).1 ⟨rfl, trivial⟩).mpr
    (by decide)

lemma sipHashChunks_ne_of_length {k0 k1 : UInt64} {m : Bytes} (h : m.length = 2 ^ 31) :
    sipHashChunks k0 k1 [.bytes m] ≠ some (hash 2 4 k0 k1 m) := by
  have hflat : [SipChunk.bytes m].flatMap SipChunk.toBytes = m := append_nil m
  have hiff := @sipHashChunks_eq_iff k0 k1 [.bytes m] trivial
  rw [hflat, h] at hiff
  exact fun heq => absurd (hiff.mp heq) (Nat.lt_irrefl _)

/-- The count of 2³¹ null bytes overflows. -/
theorem sipHash_versions_agree_overflow :
    sipHashChunks 0 0 [.bytes (List.replicate (2 ^ 31) 0)] ≠
      some (hash 2 4 0 0 (List.replicate (2 ^ 31) 0)) :=
  sipHashChunks_ne_of_length length_replicate

end MutableBitcoin
