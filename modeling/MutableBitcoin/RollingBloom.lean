import MutableBitcoin.Uint256
import MutableBitcoin.Lib.Generations
import Mathlib.Data.UInt

/-!
# The rolling Bloom filter

`CRollingBloomFilter` of `bloom.cpp`: each position of the filter holds a generation number in two bits, one in
each of a pair of words. The numbers a filter holds are the marks of `Lib.Generations`.
-/

namespace MutableBitcoin
open Lib List Nat

/-- A positive number of pairs of words. -/
structure WordPairs (data : List (BitVec 64)) : Prop where
  even : data.length % 2 = 0
  two_le : 2 ≤ data.length

lemma WordPairs.of_length {data data' : List (BitVec 64)} (h : WordPairs data)
    (hlength : data'.length = data.length) : WordPairs data' where
  even := by rw [hlength]; exact h.even
  two_le := by rw [hlength]; exact h.two_le

/-- The filter; its generation is one of the three numbers. -/
structure CRollingBloomFilter where
  nEntriesPerGeneration : BitVec 32
  nEntriesThisGeneration : BitVec 32
  nGeneration : ℕ
  data : List (BitVec 64)
  nTweak : BitVec 32
  nHashFuncs : ℕ
  nGeneration_pos : 1 ≤ nGeneration
  nGeneration_le : nGeneration ≤ 3
  data_pairs : WordPairs data

namespace CRollingBloomFilter

def wipe (nGenerationMask1 nGenerationMask2 : BitVec 64) : List (BitVec 64) → List (BitVec 64)
  | p1 :: p2 :: data =>
    let mask := (p1 ^^^ nGenerationMask1) ||| (p2 ^^^ nGenerationMask2)
    (p1 &&& mask) :: (p2 &&& mask) :: wipe nGenerationMask1 nGenerationMask2 data
  | data => data

@[simp] lemma wipe_length (m₁ m₂ : BitVec 64) (data : List (BitVec 64)) :
    (wipe m₁ m₂ data).length = data.length := by
  fun_induction wipe m₁ m₂ data with
  | case1 p1 p2 data mask ih => simp [ih]
  | case2 data hdata => rfl

def bitOf (h : BitVec 32) : ℕ := (h &&& 0x3F#32).toNat

def posOf (size : ℕ) (h : BitVec 32) : BitVec 32 := BitVec.ofNat 32 ((h >>> 6).toNat % size)

def firstWord (size : ℕ) (h : BitVec 32) : ℕ := (posOf size h &&& ~~~1#32).toNat

def secondWord (size : ℕ) (h : BitVec 32) : ℕ := (posOf size h ||| 1#32).toNat

/-- `word` with the bit replaced by the lowest bit of `value`. -/
def replaceBit (word : BitVec 64) (bit : ℕ) (value : ℕ) : BitVec 64 :=
  (word &&& ~~~(1#64 <<< bit)) ||| (BitVec.ofNat 64 value <<< bit)

def store (nGeneration : ℕ) (data : List (BitVec 64)) (h : BitVec 32) : List (BitVec 64) :=
  let i := firstWord data.length h
  let j := secondWord data.length h
  let data' := data.set i (replaceBit (data.getD i 0) (bitOf h) (nGeneration &&& 1))
  data'.set j (replaceBit (data'.getD j 0) (bitOf h) (nGeneration >>> 1))

@[simp] lemma store_length (g : ℕ) (data : List (BitVec 64)) (h : BitVec 32) :
    (store g data h).length = data.length := by
  simp [store]

section Hash
variable (MurmurHash3 : BitVec 32 → Bytes → BitVec 32)

def rollingBloomHash (nHashNum : ℕ) (nTweak : BitVec 32) (vDataToHash : Bytes) : BitVec 32 :=
  MurmurHash3 (BitVec.ofNat 32 nHashNum * 0xFBA4C795#32 + nTweak) vDataToHash

/-- The loop of `insert` over the hash functions. -/
def storeAll (nHashFuncs nGeneration : ℕ) (nTweak : BitVec 32) (vKey : Bytes) (data : List (BitVec 64)) :
    List (BitVec 64) :=
  (List.range nHashFuncs).foldl
    (fun data n => store nGeneration data (rollingBloomHash MurmurHash3 n nTweak vKey)) data

@[simp] lemma storeAll_length (n g : ℕ) (nTweak : BitVec 32) (vKey : Bytes) (data : List (BitVec 64)) :
    (storeAll MurmurHash3 n g nTweak vKey data).length = data.length := by
  induction n with
  | zero => rfl
  | succ n ih => simpa [storeAll, range_succ] using ih

end Hash

def nextGeneration (nGeneration : ℕ) : ℕ :=
  let nGeneration := nGeneration + 1
  if nGeneration = 4 then 1 else nGeneration

lemma nextGeneration_eq (g : ℕ) : nextGeneration g = Generations.next g := by
  simp only [nextGeneration, Generations.next]
  split_ifs <;> omega

lemma nextGeneration_pos (g : ℕ) : 1 ≤ nextGeneration g := by
  simp only [nextGeneration]
  split_ifs <;> omega

lemma nextGeneration_le {g : ℕ} (h : g ≤ 3) : nextGeneration g ≤ 3 := by
  simp only [nextGeneration]
  split_ifs <;> omega

lemma wipe_pairs {m₁ m₂ : BitVec 64} {data : List (BitVec 64)} (h : WordPairs data) :
    WordPairs (wipe m₁ m₂ data) :=
  h.of_length (wipe_length m₁ m₂ data)

def wipeGeneration (nGeneration : ℕ) (data : List (BitVec 64)) : List (BitVec 64) :=
  wipe (0#64 - BitVec.ofNat 64 (nGeneration &&& 1)) (0#64 - BitVec.ofNat 64 (nGeneration >>> 1)) data

/-- What `insert` does when the generation is complete. -/
def startGeneration (f : CRollingBloomFilter) : CRollingBloomFilter :=
  { f with
    nEntriesThisGeneration := 0
    nGeneration := nextGeneration f.nGeneration
    nGeneration_pos := nextGeneration_pos f.nGeneration
    nGeneration_le := nextGeneration_le f.nGeneration_le
    data := wipeGeneration (nextGeneration f.nGeneration) f.data
    data_pairs := wipe_pairs f.data_pairs }

def completeGeneration (f : CRollingBloomFilter) : CRollingBloomFilter :=
  if f.nEntriesThisGeneration = f.nEntriesPerGeneration then f.startGeneration else f

section Calls
variable (MurmurHash3 : BitVec 32 → Bytes → BitVec 32)

lemma storeAll_pairs {n g : ℕ} {nTweak : BitVec 32} {vKey : Bytes} {data : List (BitVec 64)}
    (h : WordPairs data) : WordPairs (storeAll MurmurHash3 n g nTweak vKey data) :=
  h.of_length (storeAll_length MurmurHash3 n g nTweak vKey data)

/-- The part of `insert` after the generation has room for the key. -/
def addEntry (f : CRollingBloomFilter) (vKey : Bytes) : CRollingBloomFilter :=
  { f with
    nEntriesThisGeneration := f.nEntriesThisGeneration + 1
    data := storeAll MurmurHash3 f.nHashFuncs f.nGeneration f.nTweak vKey f.data
    data_pairs := storeAll_pairs MurmurHash3 f.data_pairs }

def insert (f : CRollingBloomFilter) (vKey : Bytes) : CRollingBloomFilter :=
  f.completeGeneration.addEntry MurmurHash3 vKey

def contains (f : CRollingBloomFilter) (vKey : Bytes) : Bool :=
  (List.range f.nHashFuncs).all fun n =>
    let h := rollingBloomHash MurmurHash3 n f.nTweak vKey
    let i := firstWord f.data.length h
    let j := secondWord f.data.length h
    ((f.data.getD i 0 ||| f.data.getD j 0) >>> bitOf h) &&& 1#64 != 0#64

lemma zeros_pairs {data : List (BitVec 64)} (h : WordPairs data) : WordPairs (data.map fun _ => 0#64) :=
  h.of_length (length_map _)

/-- `nTweak` is the number that `GetRand` draws. -/
def reset (f : CRollingBloomFilter) (nTweak : BitVec 32) : CRollingBloomFilter :=
  { f with
    nTweak := nTweak
    nEntriesThisGeneration := 0
    nGeneration := 1
    nGeneration_pos := le_rfl
    nGeneration_le := by decide
    data := f.data.map fun _ => 0#64
    data_pairs := zeros_pairs f.data_pairs }

lemma replicate_pairs {size : ℕ} (heven : size % 2 = 0) (hsize : 2 ≤ size) :
    WordPairs (List.replicate size 0#64) where
  even := by rwa [length_replicate]
  two_le := by rwa [length_replicate]

/-- The constructor, given the number of hash functions and the size of the table that it computes from the
rate of false positives. `nElements` is an `unsigned int`, whose sum with one may wrap. -/
def construct (nElements : BitVec 32) (nHashFuncs size : ℕ) (heven : size % 2 = 0) (hsize : 2 ≤ size)
    (nTweak : BitVec 32) : CRollingBloomFilter :=
  reset
    { nEntriesPerGeneration := (nElements + 1) / 2
      nEntriesThisGeneration := 0
      nGeneration := 1
      nGeneration_pos := le_rfl
      nGeneration_le := by decide
      data := List.replicate size 0#64
      data_pairs := replicate_pairs heven hsize
      nTweak := 0
      nHashFuncs := nHashFuncs } nTweak

/-- The calls that change a filter. -/
inductive Call where
  | insert (vKey : Bytes)
  | reset (nTweak : BitVec 32)

def call (f : CRollingBloomFilter) : Call → CRollingBloomFilter
  | .insert vKey => f.insert MurmurHash3 vKey
  | .reset nTweak => f.reset nTweak

def run (f : CRollingBloomFilter) (calls : List Call) : CRollingBloomFilter := calls.foldl (call MurmurHash3) f

end Calls

def keysAfter (keys : List Bytes) : Call → List Bytes
  | .insert vKey => keys ++ [vKey]
  | .reset _ => []

def insertedKeys (calls : List Call) : List Bytes := calls.foldl keysAfter []

/-! ### The generation numbers of a table -/

def numberAt (data : List (BitVec 64)) (p : ℕ × ℕ) : ℕ :=
  ((data.getD (2 * p.1) 0).getLsbD p.2).toNat + 2 * ((data.getD (2 * p.1 + 1) 0).getLsbD p.2).toNat

def positionOf (size : ℕ) (h : BitVec 32) : ℕ × ℕ := ((h >>> 6).toNat % size / 2, bitOf h)

lemma posOf_toNat (size : ℕ) (h : BitVec 32) : (posOf size h).toNat = (h >>> 6).toNat % size := by
  have hlt : (h >>> 6).toNat % size < 2 ^ 32 := (mod_le _ _).trans_lt (h >>> 6).isLt
  rw [posOf, BitVec.toNat_ofNat, mod_eq_of_lt hlt]

lemma toNat_and_not_one (pos : BitVec 32) : (pos &&& ~~~1#32).toNat = 2 * (pos.toNat / 2) := by
  refine eq_of_testBit_eq fun i => ?_
  rw [BitVec.testBit_toNat, BitVec.getLsbD_and, BitVec.getLsbD_not, BitVec.getLsbD_one]
  cases i with
  | zero => simp
  | succ i =>
    rw [Nat.testBit_succ, Nat.mul_div_cancel_left _ (by decide), ← Nat.testBit_succ, BitVec.testBit_toNat]
    by_cases hi : i + 1 < 32
    · simp [hi]
    · simp [hi, BitVec.getLsbD_of_ge pos _ (Nat.le_of_not_lt hi)]

lemma toNat_or_one (pos : BitVec 32) : (pos ||| 1#32).toNat = 2 * (pos.toNat / 2) + 1 := by
  refine eq_of_testBit_eq fun i => ?_
  rw [BitVec.testBit_toNat, BitVec.getLsbD_or, BitVec.getLsbD_one]
  cases i with
  | zero => simp
  | succ i =>
    have hhalf : (2 * (pos.toNat / 2) + 1) / 2 = pos.toNat / 2 := by omega
    rw [testBit_succ, hhalf, ← testBit_succ, BitVec.testBit_toNat]
    simp

lemma firstWord_eq (size : ℕ) (h : BitVec 32) : firstWord size h = 2 * (positionOf size h).1 := by
  rw [firstWord, toNat_and_not_one, posOf_toNat, positionOf]

lemma secondWord_eq (size : ℕ) (h : BitVec 32) : secondWord size h = 2 * (positionOf size h).1 + 1 := by
  rw [secondWord, toNat_or_one, posOf_toNat, positionOf]

lemma bitOf_lt (h : BitVec 32) : bitOf h < 64 := by
  rw [bitOf, BitVec.toNat_and]
  exact and_lt_two_pow (n := 6) _ (by decide)

lemma getLsbD_replaceBit (word : BitVec 64) {bit : ℕ} (hbit : bit < 64) {value : ℕ} (hvalue : value < 2)
    (i : ℕ) : (replaceBit word bit value).getLsbD i = if i = bit then value.testBit 0 else word.getLsbD i := by
  have hhigh : ∀ x < 2, ∀ k, 0 < k → x.testBit k = false := fun x hx k hk =>
    Nat.testBit_lt_two_pow (hx.trans_le (Nat.pow_le_pow_right (n := 2) (by decide) hk))
  simp only [replaceBit, BitVec.getLsbD_or, BitVec.getLsbD_and, BitVec.getLsbD_not,
    BitVec.getLsbD_shiftLeft, BitVec.getLsbD_ofNat]
  by_cases hi : i < 64
  · obtain hlt | rfl | hlt := lt_trichotomy i bit
    · simp [hi, hlt, hlt.ne]
    · simp [hi]
    · have hnot : ¬ i < bit := by omega
      have hne : i ≠ bit := by omega
      have hpos : 0 < i - bit := by omega
      simp [hi, hnot, hne, hhigh value hvalue _ hpos, hhigh 1 (by decide) _ hpos]
  · have hne : i ≠ bit := by omega
    simp [hi, hne, BitVec.getLsbD_of_ge _ _ (Nat.le_of_not_lt hi)]

lemma number_bits {g : ℕ} (hg : g ≤ 3) :
    ((g &&& 1).testBit 0).toNat + 2 * ((g >>> 1).testBit 0).toNat = g := by
  interval_cases g <;> decide

lemma getD_set {data : List (BitVec 64)} {i : ℕ} (hi : i < data.length) (w : BitVec 64) (j : ℕ) :
    (data.set i w).getD j 0 = if j = i then w else data.getD j 0 := by
  simp only [getD_eq_getElem?_getD, getElem?_set, hi, if_true, @eq_comm _ i j]
  split_ifs <;> rfl

lemma numberAt_store {data : List (BitVec 64)} (hdata : WordPairs data) {g : ℕ} (hg : g ≤ 3) (h : BitVec 32)
    (p : ℕ × ℕ) :
    numberAt (store g data h) p = if p = positionOf data.length h then g else numberAt data p := by
  have heven := hdata.even
  have hsize := hdata.two_le
  have hpos : (h >>> 6).toNat % data.length < data.length := mod_lt _ (by omega)
  have hsecond : 2 * (positionOf data.length h).1 + 1 < data.length := by
    simp only [positionOf]
    omega
  have hlow : g &&& 1 < 2 := and_lt_two_pow (n := 1) _ (by decide)
  have hhigh : g >>> 1 < 2 := by
    rw [shiftRight_eq_div_pow]
    omega
  have hbit := bitOf_lt h
  have hsecond' : ∀ w,
      2 * (positionOf data.length h).1 + 1 < (data.set (2 * (positionOf data.length h).1) w).length := by
    simpa using hsecond
  have hsnd : (positionOf data.length h).2 = bitOf h := rfl
  simp only [numberAt, store, firstWord_eq, secondWord_eq]
  simp only [getD_set (hsecond' _), getD_set (lt_of_succ_lt hsecond)]
  generalize positionOf data.length h = q at *
  obtain ⟨w, b⟩ := p
  obtain ⟨w', b'⟩ := q
  simp only at hsnd
  subst hsnd
  have hparity : ∀ x y : ℕ, 2 * x ≠ 2 * y + 1 := by omega
  by_cases hw : w = w'
  · subst hw
    simp only [hparity, (hparity _ _).symm, if_true, if_false, getLsbD_replaceBit _ hbit hlow,
      getLsbD_replaceBit _ hbit hhigh, Prod.mk.injEq, true_and]
    split_ifs
    · exact number_bits hg
    · rfl
  · simp [hparity, (hparity _ _).symm, hw]

lemma getLsbD_mask (b : ℕ) : (0#64 - 1#64).getLsbD b = decide (b < 64) := by
  rw [show 0#64 - 1#64 = BitVec.allOnes 64 by decide, BitVec.getLsbD_allOnes]

lemma number_mask {g : ℕ} (hpos : 1 ≤ g) (hle : g ≤ 3) (p1 p2 : BitVec 64) (b : ℕ) :
    let mask := (p1 ^^^ (0#64 - BitVec.ofNat 64 (g &&& 1))) ||| (p2 ^^^ (0#64 - BitVec.ofNat 64 (g >>> 1)))
    ((p1 &&& mask).getLsbD b).toNat + 2 * ((p2 &&& mask).getLsbD b).toNat =
      if (p1.getLsbD b).toNat + 2 * (p2.getLsbD b).toNat = g then 0
      else (p1.getLsbD b).toNat + 2 * (p2.getLsbD b).toNat := by
  by_cases hb : b < 64
  · simp only [BitVec.getLsbD_and, BitVec.getLsbD_or, BitVec.getLsbD_xor]
    generalize p1.getLsbD b = x
    generalize p2.getLsbD b = y
    interval_cases g
    · simp only [Nat.and_self, Nat.reduceShiftRight, getLsbD_mask, hb]
      cases x <;> cases y <;> simp
    · simp only [Nat.reduceAnd, Nat.reduceShiftRight, getLsbD_mask, hb]
      cases x <;> cases y <;> simp
    · simp only [Nat.reduceAnd, Nat.reduceShiftRight, getLsbD_mask, hb]
      cases x <;> cases y <;> simp
  · simp [BitVec.getLsbD_of_ge p1 b (Nat.le_of_not_lt hb), BitVec.getLsbD_of_ge p2 b (Nat.le_of_not_lt hb)]

lemma numberAt_wipeGeneration {g : ℕ} (hpos : 1 ≤ g) (hle : g ≤ 3) (data : List (BitVec 64))
    (heven : data.length % 2 = 0) (p : ℕ × ℕ) :
    numberAt (wipeGeneration g data) p = if numberAt data p = g then 0 else numberAt data p := by
  obtain ⟨w, b⟩ := p
  have hmask := number_mask hpos hle
  unfold wipeGeneration
  generalize 0#64 - BitVec.ofNat 64 (g &&& 1) = m₁ at *
  generalize 0#64 - BitVec.ofNat 64 (g >>> 1) = m₂ at *
  fun_induction wipe m₁ m₂ data generalizing w with
  | case1 p1 p2 data mask ih =>
    cases w with
    | zero => exact hmask p1 p2 b
    | succ w =>
      simp only [length_cons] at heven
      exact ih (by omega) w
  | case2 data hdata =>
    cases data with
    | nil => simp [numberAt]
    | cons x data =>
      cases data with
      | nil => simp at heven
      | cons y data => exact (hdata x y data rfl).elim

section Calls
variable (MurmurHash3 : BitVec 32 → Bytes → BitVec 32)

/-- The positions of a key. -/
def positions (nHashFuncs size : ℕ) (nTweak : BitVec 32) (vKey : Bytes) : Set (ℕ × ℕ) :=
  {p | ∃ n < nHashFuncs, p = positionOf size (rollingBloomHash MurmurHash3 n nTweak vKey)}

open Classical in
lemma numberAt_storeAll {data : List (BitVec 64)} (hdata : WordPairs data) {g : ℕ} (hg : g ≤ 3)
    (nHashFuncs : ℕ) (nTweak : BitVec 32) (vKey : Bytes) (p : ℕ × ℕ) :
    numberAt (storeAll MurmurHash3 nHashFuncs g nTweak vKey data) p =
      if p ∈ positions MurmurHash3 nHashFuncs data.length nTweak vKey then g else numberAt data p := by
  induction nHashFuncs with
  | zero => simp [storeAll, positions]
  | succ n ih =>
    have hsplit : storeAll MurmurHash3 (n + 1) g nTweak vKey data =
        store g (storeAll MurmurHash3 n g nTweak vKey data)
          (rollingBloomHash MurmurHash3 n nTweak vKey) := by
      simp [storeAll, range_succ]
    have hmem : p ∈ positions MurmurHash3 (n + 1) data.length nTweak vKey ↔
        p ∈ positions MurmurHash3 n data.length nTweak vKey ∨
          p = positionOf data.length (rollingBloomHash MurmurHash3 n nTweak vKey) := by
      simp only [positions, Set.mem_ofPred_eq]
      exact exists_lt_succ_right
    rw [hsplit, numberAt_store (storeAll_pairs MurmurHash3 hdata) hg, storeAll_length, ih]
    simp only [hmem]
    split_ifs <;> tauto

lemma numberAt_ne_zero_iff (data : List (BitVec 64)) (h : BitVec 32) :
    numberAt data (positionOf data.length h) ≠ 0 ↔
      ((data.getD (firstWord data.length h) 0 ||| data.getD (secondWord data.length h) 0) >>> bitOf h) &&& 1#64
        ≠ 0#64 := by
  rw [firstWord_eq, secondWord_eq]
  have hsnd : (positionOf data.length h).2 = bitOf h := rfl
  simp only [numberAt, hsnd]
  generalize data.getD (2 * (positionOf data.length h).1) 0 = x
  generalize data.getD (2 * (positionOf data.length h).1 + 1) 0 = y
  rw [BitVec.and_one_eq_setWidth_ofBool_getLsbD, BitVec.getLsbD_ushiftRight, add_zero, BitVec.getLsbD_or]
  cases x.getLsbD (bitOf h) <;> cases y.getLsbD (bitOf h) <;> simp

lemma contains_iff (f : CRollingBloomFilter) (vKey : Bytes) :
    f.contains MurmurHash3 vKey = true ↔
      ∀ p ∈ positions MurmurHash3 f.nHashFuncs f.data.length f.nTweak vKey, numberAt f.data p ≠ 0 := by
  simp only [contains, all_eq_true, mem_range, bne_iff_ne, ← numberAt_ne_zero_iff, positions,
    Set.mem_ofPred_eq]
  constructor
  · rintro h p ⟨n, hn, rfl⟩
    exact h n hn
  · intro h n hn
    exact h _ ⟨n, hn, rfl⟩

/-! ### Runs -/

def marks (f : CRollingBloomFilter) : Generations (ℕ × ℕ) where
  mark := numberAt f.data
  generation := f.nGeneration

lemma marks_startGeneration (f : CRollingBloomFilter) : f.startGeneration.marks = f.marks.advance := by
  have hnext := nextGeneration_eq f.nGeneration
  simp only [marks, startGeneration, Generations.advance, Generations.mk.injEq]
  refine ⟨funext fun p => ?_, hnext⟩
  rw [numberAt_wipeGeneration (nextGeneration_pos _) (nextGeneration_le f.nGeneration_le) _ f.data_pairs.even,
    hnext]
  rfl

lemma marks_addEntry (f : CRollingBloomFilter) (vKey : Bytes) :
    (f.addEntry MurmurHash3 vKey).marks =
      f.marks.touch (positions MurmurHash3 f.nHashFuncs f.data.length f.nTweak vKey) := by
  simp only [marks, addEntry, Generations.touch, Generations.mk.injEq, and_true]
  exact funext fun p => numberAt_storeAll MurmurHash3 f.data_pairs f.nGeneration_le _ _ _ p

def generationLength (f : CRollingBloomFilter) : ℕ :=
  if f.nEntriesPerGeneration = 0 then 2 ^ 32 else f.nEntriesPerGeneration.toNat

/-- The filter holds the keys of the last generations. -/
structure Tracks (f : CRollingBloomFilter) (earlier old previous current : List Bytes) : Prop where
  remembers : f.marks.Remembers f.generationLength
    (positions MurmurHash3 f.nHashFuncs f.data.length f.nTweak) earlier old previous current
  length_le : current.length ≤ f.generationLength
  count : f.nEntriesThisGeneration = BitVec.ofNat 32 current.length
  started : current = [] → earlier ++ old ++ previous = []

variable {f : CRollingBloomFilter} {earlier old previous current : List Bytes}

lemma Tracks.full_iff (h : Tracks MurmurHash3 f earlier old previous current) (hcurrent : current ≠ []) :
    f.nEntriesThisGeneration = f.nEntriesPerGeneration ↔ current.length = f.generationLength := by
  have hlength := h.length_le
  have hpos : 0 < current.length := length_pos_iff.mpr hcurrent
  have hlt := f.nEntriesPerGeneration.isLt
  rw [h.count, BitVec.toNat_eq, BitVec.toNat_ofNat]
  unfold generationLength at hlength ⊢
  split_ifs at hlength ⊢ with hzero
  · rw [hzero]
    simp only [BitVec.ofNat_eq_ofNat, BitVec.toNat_ofNat]
    omega
  · rw [mod_eq_of_lt (by omega)]

lemma tracks_reset (f : CRollingBloomFilter) (nTweak : BitVec 32) :
    Tracks MurmurHash3 (f.reset nTweak) [] [] [] [] where
  remembers := Generations.remembers_nil le_rfl (by decide : 1 ≤ 3)
  length_le := zero_le _
  count := rfl
  started _ := rfl

lemma Tracks.completeGeneration (h : Tracks MurmurHash3 f earlier old previous current) :
    ∃ earlier' old' previous' current',
      earlier' ++ old' ++ previous' ++ current' = earlier ++ old ++ previous ++ current ∧
      f.completeGeneration.marks.Remembers f.generationLength
        (positions MurmurHash3 f.nHashFuncs f.data.length f.nTweak) earlier' old' previous' current' ∧
      current'.length < f.generationLength ∧
      f.completeGeneration.nEntriesThisGeneration = BitVec.ofNat 32 current'.length := by
  have hpos : 0 < f.generationLength := by
    have hne : f.nEntriesPerGeneration ≠ 0 → 0 < f.nEntriesPerGeneration.toNat := fun hne =>
      pos_of_ne_zero fun hzero => hne (BitVec.eq_of_toNat_eq hzero)
    unfold generationLength
    split_ifs with hzero
    · decide
    · exact hne hzero
  unfold CRollingBloomFilter.completeGeneration
  split_ifs with hfull
  · refine ⟨earlier ++ old, previous, current, [], by simp, ?_, hpos, rfl⟩
    rw [marks_startGeneration]
    refine h.remembers.advance fun hne => ?_
    have hcurrent : current ≠ [] := fun hnil => hne (h.started hnil)
    exact ((h.full_iff MurmurHash3 hcurrent).mp hfull).ge
  · refine ⟨earlier, old, previous, current, rfl, h.remembers, ?_, h.count⟩
    by_cases hcurrent : current = []
    · subst hcurrent
      exact hpos
    · exact lt_of_le_of_ne h.length_le fun hlength => hfull ((h.full_iff MurmurHash3 hcurrent).mpr hlength)

lemma completeGeneration_config (f : CRollingBloomFilter) :
    f.completeGeneration.nEntriesPerGeneration = f.nEntriesPerGeneration ∧
      f.completeGeneration.nHashFuncs = f.nHashFuncs ∧ f.completeGeneration.nTweak = f.nTweak ∧
      f.completeGeneration.data.length = f.data.length := by
  unfold CRollingBloomFilter.completeGeneration
  split_ifs
  · simp [startGeneration, wipeGeneration]
  · simp

lemma Tracks.insert (h : Tracks MurmurHash3 f earlier old previous current) (vKey : Bytes) :
    ∃ earlier' old' previous' current',
      earlier' ++ old' ++ previous' ++ current' = earlier ++ old ++ previous ++ current ++ [vKey] ∧
      Tracks MurmurHash3 (f.insert MurmurHash3 vKey) earlier' old' previous' current' := by
  obtain ⟨earlier', old', previous', current', hkeys, hremembers, hlength, hcount⟩ :=
    h.completeGeneration MurmurHash3
  obtain ⟨hper, hfuncs, htweak, hsize⟩ := completeGeneration_config f
  have hgeneration : (f.insert MurmurHash3 vKey).generationLength = f.generationLength := by
    simp only [generationLength, CRollingBloomFilter.insert, addEntry, hper]
  refine ⟨earlier', old', previous', current' ++ [vKey], by rw [← append_assoc, hkeys], ?_, ?_, ?_, ?_⟩
  · have hlen : (f.insert MurmurHash3 vKey).data.length = f.data.length := by
      simp [CRollingBloomFilter.insert, addEntry, hsize]
    have hmarks := marks_addEntry MurmurHash3 f.completeGeneration vKey
    rw [hfuncs, htweak, hsize] at hmarks
    rw [hgeneration, hlen]
    simp only [CRollingBloomFilter.insert] at hmarks ⊢
    rw [hmarks]
    simpa only [addEntry, hfuncs, htweak] using hremembers.touch vKey
  · rw [hgeneration, length_append]
    exact hlength
  · simp only [CRollingBloomFilter.insert, addEntry, hcount, length_append, length_singleton,
      BitVec.ofNat_add]
    rfl
  · simp

lemma exists_tracks_run (hstart : Tracks MurmurHash3 f [] [] [] []) (calls : List Call) :
    ∃ earlier old previous current,
      earlier ++ old ++ previous ++ current = insertedKeys calls ∧
      Tracks MurmurHash3 (run MurmurHash3 f calls) earlier old previous current := by
  induction calls using List.reverseRecOn with
  | nil => exact ⟨[], [], [], [], rfl, hstart⟩
  | append_singleton calls c ih =>
    obtain ⟨earlier, old, previous, current, hkeys, htracks⟩ := ih
    simp only [run, insertedKeys, foldl_append, foldl_cons, foldl_nil] at hkeys htracks ⊢
    cases c with
    | insert vKey =>
      obtain ⟨earlier', old', previous', current', hkeys', htracks'⟩ := htracks.insert MurmurHash3 vKey
      exact ⟨earlier', old', previous', current', by rw [hkeys', hkeys]; rfl, htracks'⟩
    | reset nTweak' => exact ⟨[], [], [], [], rfl, tracks_reset MurmurHash3 _ nTweak'⟩

lemma call_nEntriesPerGeneration (f : CRollingBloomFilter) (c : Call) :
    (f.call MurmurHash3 c).nEntriesPerGeneration = f.nEntriesPerGeneration := by
  cases c with
  | insert vKey => exact (completeGeneration_config f).1
  | reset nTweak => rfl

lemma run_nEntriesPerGeneration (f : CRollingBloomFilter) (calls : List Call) :
    (run MurmurHash3 f calls).nEntriesPerGeneration = f.nEntriesPerGeneration := by
  induction calls generalizing f with
  | nil => rfl
  | cons c calls ih => exact (ih _).trans (call_nEntriesPerGeneration MurmurHash3 f c)

end Calls

lemma le_two_generations {f : CRollingBloomFilter} {nElements : BitVec 32}
    (h : f.nEntriesPerGeneration = (nElements + 1) / 2) : nElements.toNat ≤ 2 * f.generationLength := by
  have hlt := nElements.isLt
  have htoNat : f.nEntriesPerGeneration.toNat = (nElements.toNat + 1) % 2 ^ 32 / 2 := by
    rw [h, BitVec.toNat_udiv, BitVec.toNat_add]
    rfl
  unfold generationLength
  split_ifs with hzero
  · omega
  · have hne : f.nEntriesPerGeneration.toNat ≠ 0 := fun h0 => hzero (BitVec.eq_of_toNat_eq h0)
    omega

/-- The filter contains each of the keys of its last `nElements` insertions. -/
theorem contains_recent (MurmurHash3 : BitVec 32 → Bytes → BitVec 32) (nElements : BitVec 32)
    (nHashFuncs size : ℕ) (heven : size % 2 = 0) (hsize : 2 ≤ size) (nTweak : BitVec 32) (calls : List Call)
    (vKey : Bytes) (hkey : vKey ∈ (insertedKeys calls).rtake nElements.toNat) :
    (run MurmurHash3 (construct nElements nHashFuncs size heven hsize nTweak) calls).contains MurmurHash3 vKey
      = true := by
  have hstart : Tracks MurmurHash3 (construct nElements nHashFuncs size heven hsize nTweak) [] [] [] [] :=
    tracks_reset MurmurHash3 _ nTweak
  obtain ⟨earlier, old, previous, current, hkeys, htracks⟩ := exists_tracks_run MurmurHash3 hstart calls
  have hper := run_nEntriesPerGeneration MurmurHash3 (construct nElements nHashFuncs size heven hsize nTweak) calls
  rw [← hkeys] at hkey
  rw [contains_iff]
  exact htracks.remembers.recent (le_two_generations hper) hkey

/-- Four insertions after a reset, one of them a repetition. -/
theorem contains_recent_afterReset :
    (run (fun seed key => seed + BitVec.ofNat 32 key.sum.toNat)
      (construct 3#32 2 4 (by decide) (by decide) 7#32)
      [.insert [1], .insert [2], .reset 5#32, .insert [3], .insert [4], .insert [3], .insert [6]]).contains
        (fun seed key => seed + BitVec.ofNat 32 key.sum.toNat) [4] = true :=
  contains_recent _ 3#32 2 4 (by decide) (by decide) 7#32 _ [4] (by decide)

end CRollingBloomFilter
end MutableBitcoin
