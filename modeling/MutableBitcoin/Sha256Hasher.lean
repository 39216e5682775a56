import MutableBitcoin.Sha256Transform

/-!
# Streaming SHA-256

`CSHA256` of `crypto/sha256.cpp`. A write fills the buffer and processes it, processes full blocks of the data, and
keeps what remains; the padding goes through the same three phases.
-/

namespace MutableBitcoin
open Lib List Option

/-- The hasher with its buffer of 64 bytes and the `uint64_t` count of bytes. -/
structure CSHA256 where
  s : Fin 8 → UInt32
  buf : BaseBlob 64
  bytes : ℕ

namespace CSHA256

def sha256Initialize : Fin 8 → UInt32 :=
  ![0x6a09e667, 0xbb67ae85, 0x3c6ef372, 0xa54ff53a, 0x510e527f, 0x9b05688c, 0x1f83d9ab, 0x5be0cd19]

def make (buf : BaseBlob 64) : CSHA256 := ⟨sha256Initialize, buf, 0⟩

/-- `memcpy(buf + offset, data, data.length)`, inside the buffer. -/
def memcpyBuf (buf : BaseBlob 64) (offset : ℕ) (data : Bytes) : Option (BaseBlob 64) :=
  if h : offset + data.length ≤ 64 then
    some ⟨buf.data.take offset ++ data ++ buf.data.drop (offset + data.length), by
      have hlength := buf.length_data
      simp only [length_append, length_take, length_drop]
      omega⟩
  else none

/-- An addition to a `uint64_t`. -/
def add64 (x y : ℕ) : ℕ := (x + y) % 2 ^ 64

/-- The first branch of `Write`: fill the buffer, and process it. It leaves the rest of the data and
`bufsize`. -/
def fillBuffer (h : CSHA256) (data : Bytes) : Option (CSHA256 × Bytes × ℕ) :=
  let bufsize := h.bytes % 64
  if bufsize ≠ 0 ∧ 64 ≤ add64 bufsize data.length then do
    let buf ← memcpyBuf h.buf bufsize (data.take (64 - bufsize))
    return (⟨transform h.s buf.data 1, buf, add64 h.bytes (64 - bufsize)⟩, data.drop (64 - bufsize), 0)
  else some (h, data, bufsize)

def processBlocks (h : CSHA256) (data : Bytes) : CSHA256 × Bytes :=
  if 64 ≤ data.length then
    let blocks := data.length / 64
    ({ h with s := transform h.s data blocks, bytes := add64 h.bytes (64 * blocks) },
      data.drop (64 * blocks))
  else (h, data)

def keepRest (h : CSHA256) (data : Bytes) (bufsize : ℕ) : Option CSHA256 :=
  if 0 < data.length then do
    let buf ← memcpyBuf h.buf bufsize data
    return { h with buf := buf, bytes := add64 h.bytes data.length }
  else some h

def write (h : CSHA256) (data : Bytes) : Option CSHA256 := do
  let (h, data, bufsize) ← fillBuffer h data
  let (h, data) := processBlocks h data
  keepRest h data bufsize

def pad : Bytes := 0x80 :: List.replicate 63 0

def writeBE32 (x : UInt32) : Bytes := (leBytes 4 x.toNat).reverse

/-- `CSHA256::Finalize`. -/
def finalize (h : CSHA256) : Option Bytes := do
  let sizedesc := (leBytes 8 (h.bytes * 8 % 2 ^ 64)).reverse
  let h ← h.write (pad.take (1 + (119 - h.bytes % 64) % 64))
  let h ← h.write sizedesc
  return writeBE32 (h.s 0) ++ writeBE32 (h.s 1) ++ writeBE32 (h.s 2) ++ writeBE32 (h.s 3) ++
    writeBE32 (h.s 4) ++ writeBE32 (h.s 5) ++ writeBE32 (h.s 6) ++ writeBE32 (h.s 7)

def hashChunks (buf : BaseBlob 64) (chunks : List Bytes) : Option Bytes := do
  let h ← chunks.foldlM write (make buf)
  h.finalize

/-! ### The state of the hasher -/

abbrev shaAbsorb (m : Bytes) : Fips180.Words × Bytes := absorb 64 Fips180.compress Fips180.initial m

/-- A hasher to which exactly these bytes have been written: the full blocks are in the state and the
rest is at the front of the buffer. -/
structure Holds (h : CSHA256) (m : Bytes) : Prop where
  s : h.s = (shaAbsorb m).1
  buf : h.buf.data.take (m.length % 64) = (shaAbsorb m).2
  bytes : h.bytes = m.length

variable {h : CSHA256} {m data : Bytes}

lemma length_shaRest (m : Bytes) : (shaAbsorb m).2.length = m.length % 64 := length_absorb_snd _ _

lemma shaAbsorb_append (m data : Bytes) :
    shaAbsorb (m ++ data) = absorb 64 Fips180.compress (shaAbsorb m).1 ((shaAbsorb m).2 ++ data) :=
  absorb_append (by norm_num) _ _ _

lemma holds_make (buf : BaseBlob 64) : Holds (make buf) [] := by
  have hnil : shaAbsorb [] = (Fips180.initial, []) := absorb_nil _
  exact ⟨by rw [hnil]; rfl, by rw [hnil]; rfl, rfl⟩

lemma memcpyBuf_of_le (buf : BaseBlob 64) (offset : ℕ) (data : Bytes) (h : offset + data.length ≤ 64) :
    ∃ buf', memcpyBuf buf offset data = some buf' ∧
      buf'.data.take (offset + data.length) = buf.data.take offset ++ data := by
  have hlength : (buf.data.take offset ++ data).length = offset + data.length := by
    rw [length_append, length_take, buf.length_data, Nat.min_eq_left (by omega)]
  rw [memcpyBuf, dif_pos h]
  exact ⟨_, rfl, by dsimp only; rw [take_left' hlength]⟩

lemma add64_of_lt {x y : ℕ} (h : x + y < 2 ^ 64) : add64 x y = x + y := Nat.mod_eq_of_lt h

lemma fillBuffer_spec (hm : Holds h m) (data : Bytes) (hlt : m.length + data.length < 2 ^ 62) :
    ∃ h' front rest, fillBuffer h data = some (h', rest, (m ++ front).length % 64) ∧ data = front ++ rest ∧
      Holds h' (m ++ front) ∧
      ((m ++ front).length % 64 = 0 ∨ (m ++ front).length % 64 + rest.length < 64) := by
  unfold fillBuffer
  dsimp only
  rw [hm.bytes, add64_of_lt (by omega)]
  split_ifs with hfill
  · obtain ⟨hne, hge⟩ := hfill
    have hfront : (data.take (64 - m.length % 64)).length = 64 - m.length % 64 := by
      rw [length_take]
      omega
    obtain ⟨buf', hcopy, htake⟩ := memcpyBuf_of_le h.buf (m.length % 64)
      (data.take (64 - m.length % 64)) (by omega)
    have hwhole : (m ++ data.take (64 - m.length % 64)).length % 64 = 0 := by
      rw [length_append, hfront]
      omega
    have hblock : ((shaAbsorb m).2 ++ data.take (64 - m.length % 64)).length = 64 := by
      rw [length_append, length_shaRest, hfront]
      omega
    have hbuf : buf'.data = (shaAbsorb m).2 ++ data.take (64 - m.length % 64) := by
      rw [hm.buf, hfront, show m.length % 64 + (64 - m.length % 64) = 64 by omega,
        take_of_length_le buf'.length_data.le] at htake
      exact htake
    have happend := shaAbsorb_append m (data.take (64 - m.length % 64))
    rw [absorb_block (by norm_num) hblock] at happend
    refine ⟨⟨transform h.s buf'.data 1, buf', add64 m.length (64 - m.length % 64)⟩,
      data.take (64 - m.length % 64), data.drop (64 - m.length % 64), ?_,
      (take_append_drop _ _).symm, ⟨?_, ?_, ?_⟩, Or.inl hwhole⟩
    · rw [hcopy, hwhole]
      rfl
    · rw [happend, transform_eq, takeBlocks, takeBlocks, compress_take, hbuf, hm.s]
    · rw [hwhole, happend, take_zero]
    · dsimp only
      rw [add64_of_lt (by omega), length_append, hfront]
  · refine ⟨h, [], data, by rw [append_nil], rfl, by rwa [append_nil], ?_⟩
    rw [append_nil]
    omega

lemma processBlocks_spec (hm : Holds h m) (hlt : m.length + data.length < 2 ^ 62)
    (hroom : m.length % 64 = 0 ∨ m.length % 64 + data.length < 64) :
    ∃ h' front rest, processBlocks h data = (h', rest) ∧ data = front ++ rest ∧ Holds h' (m ++ front) ∧
      (m ++ front).length % 64 = m.length % 64 ∧ m.length % 64 + rest.length < 64 := by
  unfold processBlocks
  split_ifs with hblocks
  · have hzero : m.length % 64 = 0 := by omega
    have hrest : (shaAbsorb m).2 = [] := length_eq_zero_iff.mp (by rw [length_shaRest, hzero])
    have hfront : (data.take (64 * (data.length / 64))).length = data.length / 64 * 64 := by
      rw [length_take]
      omega
    have happend := shaAbsorb_append m (data.take (64 * (data.length / 64)))
    rw [hrest, nil_append, absorb_of_length_eq (by norm_num) hfront] at happend
    have hsame : (m ++ data.take (64 * (data.length / 64))).length % 64 = m.length % 64 := by
      rw [length_append, hfront]
      omega
    have hstate : transform h.s data (data.length / 64) =
        takeBlocks 64 Fips180.compress (data.length / 64) (shaAbsorb m).1
          (data.take (64 * (data.length / 64))) := by
      have hsplit := takeBlocks_congr_front (f := Fips180.compress) hfront h.s
        (data.drop (64 * (data.length / 64)))
      rw [take_append_drop] at hsplit
      rw [transform_eq, hsplit, hm.s]
    refine ⟨_, data.take (64 * (data.length / 64)), data.drop (64 * (data.length / 64)), rfl,
      (take_append_drop _ _).symm, ⟨?_, ?_, ?_⟩, hsame, ?_⟩
    · rw [happend, ← hstate]
    · rw [happend, hsame, hzero, take_zero]
    · dsimp only
      rw [hm.bytes, add64_of_lt (by omega), length_append, hfront, Nat.mul_comm]
    · rw [length_drop]
      omega
  · refine ⟨h, [], data, rfl, rfl, by rwa [append_nil], by rw [append_nil], ?_⟩
    omega

lemma keepRest_spec (hm : Holds h m) (data : Bytes) (hlt : m.length + data.length < 2 ^ 62)
    (hroom : m.length % 64 + data.length < 64) :
    ∃ h', keepRest h data (m.length % 64) = some h' ∧ Holds h' (m ++ data) := by
  unfold keepRest
  split_ifs with hpos
  · obtain ⟨buf', hcopy, htake⟩ := memcpyBuf_of_le h.buf (m.length % 64) data hroom.le
    have hshort : ((shaAbsorb m).2 ++ data).length < 64 := by
      rw [length_append, length_shaRest]
      exact hroom
    have happend := shaAbsorb_append m data
    rw [absorb_of_lt hshort] at happend
    have hlength : (m ++ data).length % 64 = m.length % 64 + data.length := by
      rw [length_append]
      omega
    rw [hcopy]
    refine ⟨_, rfl, ⟨?_, ?_, ?_⟩⟩
    · rw [happend]
      exact hm.s
    · rw [hlength, happend, ← hm.buf]
      exact htake
    · dsimp only
      rw [hm.bytes, add64_of_lt (by omega), length_append]
  · obtain rfl : data = [] := length_eq_zero_iff.mp (by omega)
    exact ⟨h, rfl, by rwa [append_nil]⟩

lemma write_spec (hm : Holds h m) (data : Bytes) (hlt : m.length + data.length < 2 ^ 62) :
    ∃ h', write h data = some h' ∧ Holds h' (m ++ data) := by
  obtain ⟨h₁, front₁, rest₁, hfill, rfl, hm₁, hroom₁⟩ := fillBuffer_spec hm data hlt
  rw [length_append] at hlt
  obtain ⟨h₂, front₂, rest₂, hblocks, rfl, hm₂, hsame, hroom₂⟩ := processBlocks_spec hm₁
    (by rw [length_append]; omega) hroom₁
  rw [length_append] at hlt
  obtain ⟨h₃, hkeep, hm₃⟩ := keepRest_spec hm₂ rest₂
    (by rw [length_append, length_append]; omega) (by omega)
  refine ⟨h₃, ?_, by rwa [append_assoc, append_assoc] at hm₃⟩
  rw [write, hfill, bind_eq_bind, bind_some]
  dsimp only
  rw [hblocks]
  dsimp only
  rw [← hsame]
  exact hkeep

lemma foldlM_write_spec (chunks : List Bytes) (hm : Holds h m)
    (hlt : m.length + chunks.flatten.length < 2 ^ 62) :
    ∃ h', chunks.foldlM write h = some h' ∧ Holds h' (m ++ chunks.flatten) := by
  induction chunks generalizing h m with
  | nil => exact ⟨h, rfl, by rwa [flatten_nil, append_nil]⟩
  | cons chunk chunks ih =>
    rw [flatten_cons, length_append] at hlt
    obtain ⟨h', hwrite, hm'⟩ := write_spec hm chunk (by omega)
    obtain ⟨h'', hfold, hm''⟩ := ih hm' (by rw [length_append]; omega)
    rw [foldlM_cons, hwrite, bind_eq_bind, bind_some, hfold, flatten_cons]
    exact ⟨h'', rfl, by rwa [append_assoc] at hm''⟩

lemma take_pad (n : ℕ) : pad.take (1 + (119 - n % 64) % 64) = 0x80 :: List.replicate ((119 - n % 64) % 64) 0 := by
  rw [pad, Nat.add_comm, take_succ_cons, take_replicate, Nat.min_eq_left (by omega)]

lemma padding_eq {n : ℕ} (hlt : n < 2 ^ 61) :
    pad.take (1 + (119 - n % 64) % 64) ++ (leBytes 8 (n * 8 % 2 ^ 64)).reverse = Lib.Sha256.padding n := by
  have hbits : n * 8 % 2 ^ 64 = 8 * n := by omega
  rw [take_pad, hbits, Lib.Sha256.padding, cons_append]

lemma finalize_eq (hm : Holds h m) (hlt : m.length < 2 ^ 61) : h.finalize = some (Fips180.hash m) := by
  have hpadding := padding_eq hlt
  have hlength := congrArg List.length hpadding
  rw [length_append, Fips180.length_padding] at hlength
  obtain ⟨h₁, hpad, hm₁⟩ := write_spec hm (pad.take (1 + (119 - m.length % 64) % 64))
    (by omega)
  obtain ⟨h₂, hsize, hm₂⟩ := write_spec hm₁ (leBytes 8 (m.length * 8 % 2 ^ 64)).reverse
    (by rw [length_append]; omega)
  rw [append_assoc, hpadding] at hm₂
  rw [finalize, hm.bytes, hpad, bind_eq_bind, bind_some, hsize, bind_some, hm₂.s]
  rfl

end CSHA256

open CSHA256

/-- Streaming SHA-256 is SHA-256: whatever is in the buffer at first, writing a string of fewer than
2⁶¹ bytes in any chunks stays inside the buffer and gives the digest of the standard, and
`Transform` is the compression function on every state and every number of blocks. -/
theorem sha256_streaming :
    (∀ (buf : BaseBlob 64) (chunks : List Bytes), chunks.flatten.length < 2 ^ 61 →
      hashChunks buf chunks = some (Fips180.hash chunks.flatten)) ∧
    (∀ (s : Fin 8 → UInt32) (chunk : Bytes), chunk.length = 64 →
      transform s chunk 1 = Fips180.compress s chunk) ∧
    ∀ (s : Fin 8 → UInt32) (chunk : Bytes) (blocks : ℕ),
      transform s chunk blocks = takeBlocks 64 Fips180.compress blocks s chunk := by
  refine ⟨fun buf chunks hlt => ?_, fun s chunk _ => ?_, transform_eq⟩
  · obtain ⟨h', hfold, hm⟩ := foldlM_write_spec chunks (holds_make buf) (by rw [length_nil]; omega)
    rw [nil_append] at hm
    rw [hashChunks, hfold, bind_eq_bind, bind_some, finalize_eq hm hlt]
  · exact transformBlock_eq s chunk

theorem sha256_streaming_two_writes :
    hashChunks (BaseBlob.null 64) [[0x61], [], [0x62, 0x63]] = some (Fips180.hash [0x61, 0x62, 0x63]) ∧
    transform sha256Initialize (List.replicate 64 0) 1 = Fips180.compress sha256Initialize (List.replicate 64 0) :=
  ⟨sha256_streaming.1 _ [[0x61], [], [0x62, 0x63]] (by decide),
    sha256_streaming.2.1 sha256Initialize (List.replicate 64 0) rfl⟩

end MutableBitcoin
