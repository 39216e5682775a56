import MutableBitcoin.Lib.CuckooTable
import MutableBitcoin.Lib.ExceptOk
import Mathlib.Algebra.Group.Nat.Defs
import Mathlib.Data.List.FinRange

/-!
# The cuckoo cache

The cache of `cuckoocache.h`, over any type of elements and any eight hash functions. The flags that allow an
erasure are packed into bytes, whose number is computed in 32 bits; a flag beyond them is out of bounds.
-/

namespace MutableBitcoin
open List Function Nat Set

/-- An access outside of the flags. -/
structure OutOfBounds where
  index : ℕ
deriving DecidableEq

/-- Flags packed into bytes. -/
structure BitPackedAtomicFlags where
  mem : List (BitVec 8)

namespace BitPackedAtomicFlags

/-- The size is padded out in a `uint32_t`. -/
def setup (b : ℕ) : BitPackedAtomicFlags := ⟨List.replicate ((b + 7) % 2 ^ 32 / 8) 0xFF#8⟩

def bitSet (flags : BitPackedAtomicFlags) (s : ℕ) : Except OutOfBounds BitPackedAtomicFlags :=
  match flags.mem[s >>> 3]? with
  | some byte => .ok ⟨flags.mem.set (s >>> 3) (byte ||| 1#8 <<< (s &&& 7))⟩
  | none => .error ⟨s⟩

def bitUnset (flags : BitPackedAtomicFlags) (s : ℕ) : Except OutOfBounds BitPackedAtomicFlags :=
  match flags.mem[s >>> 3]? with
  | some byte => .ok ⟨flags.mem.set (s >>> 3) (byte &&& ~~~(1#8 <<< (s &&& 7)))⟩
  | none => .error ⟨s⟩

def bitIsSet (flags : BitPackedAtomicFlags) (s : ℕ) : Except OutOfBounds Bool :=
  match flags.mem[s >>> 3]? with
  | some byte => .ok ((1#8 <<< (s &&& 7)) &&& byte != 0#8)
  | none => .error ⟨s⟩

end BitPackedAtomicFlags

/-- The number of slots, a `uint32_t` that `setup` makes two at the least. -/
structure TableSize where
  val : ℕ
  two_le : 2 ≤ val
  lt : val < 2 ^ 32

/-- The cache after `setup`. -/
structure Cache (Element : Type) (size : TableSize) where
  table : Fin size.val → Element
  collection_flags : BitPackedAtomicFlags
  epoch_flags : Fin size.val → Bool
  epoch_heuristic_counter : ℕ
  epoch_size : ℕ
  depth_limit : ℕ

namespace Cache
variable {Element : Type} {size : TableSize}

def setup [Inhabited Element] (size : TableSize) (depth_limit : ℕ) : Cache Element size where
  table _ := default
  collection_flags := .setup size.val
  epoch_flags _ := false
  epoch_heuristic_counter := max 1 (45 * size.val % 2 ^ 32 / 100)
  epoch_size := max 1 (45 * size.val % 2 ^ 32 / 100)
  depth_limit := depth_limit

def invalid : ℕ := 2 ^ 32 - 1

lemma bucket_lt (size : TableSize) (h : BitVec 32) : (h.toNat * size.val) >>> 32 < size.val := by
  have hpos : 0 < size.val := lt_of_lt_of_le (by decide) size.two_le
  rw [shiftRight_eq_div_pow, div_lt_iff_lt_mul (by decide), mul_comm size.val]
  exact Nat.mul_lt_mul_of_pos_right h.isLt hpos

def bucket (size : TableSize) (h : BitVec 32) : Fin size.val := ⟨(h.toNat * size.val) >>> 32, bucket_lt size h⟩

def computeHashes (hash_function : Fin 8 → Element → BitVec 32) (size : TableSize) (e : Element) :
    Fin 8 → Fin size.val :=
  fun i => bucket size (hash_function i e)

def allowErase (c : Cache Element size) (n : Fin size.val) : Except OutOfBounds (Cache Element size) := do
  let flags ← c.collection_flags.bitSet n
  return { c with collection_flags := flags }

def pleaseKeep (c : Cache Element size) (n : Fin size.val) : Except OutOfBounds (Cache Element size) := do
  let flags ← c.collection_flags.bitUnset n
  return { c with collection_flags := flags }

def setEpoch (c : Cache Element size) (n : Fin size.val) (epoch : Bool) : Cache Element size :=
  { c with epoch_flags := Function.update c.epoch_flags n epoch }

/-- The count of `epoch_check`. -/
def countUnused (c : Cache Element size) : List (Fin size.val) → ℕ → Except OutOfBounds ℕ
  | [], epoch_unused_count => .ok epoch_unused_count
  | i :: slots, epoch_unused_count =>
    if c.epoch_flags i then do
      let isSet ← c.collection_flags.bitIsSet i
      countUnused c slots (if isSet then epoch_unused_count else epoch_unused_count + 1)
    else countUnused c slots epoch_unused_count

def ageSlot (c : Cache Element size) (i : Fin size.val) : Except OutOfBounds (Cache Element size) :=
  if c.epoch_flags i then .ok (c.setEpoch i false) else c.allowErase i

/-- The scan of `epoch_check`. -/
def scanEpoch (c : Cache Element size) : Except OutOfBounds (Cache Element size) := do
  let epoch_unused_count ← c.countUnused (List.finRange size.val) 0
  if c.epoch_size ≤ epoch_unused_count then
    let aged ← (List.finRange size.val).foldlM ageSlot c
    return { aged with epoch_heuristic_counter := aged.epoch_size }
  else
    return { c with
      epoch_heuristic_counter := max 1 (max (c.epoch_size / 16) (c.epoch_size - epoch_unused_count)) }

def epochCheck (c : Cache Element size) : Except OutOfBounds (Cache Element size) :=
  if c.epoch_heuristic_counter ≠ 0 then
    .ok { c with epoch_heuristic_counter := c.epoch_heuristic_counter - 1 }
  else c.scanEpoch

def probe (flags : BitPackedAtomicFlags) :
    List (Fin size.val) → List (Fin size.val) → Except OutOfBounds (Option (Fin size.val) × List (Fin size.val))
  | [], probed => .ok (none, probed)
  | loc :: locs, probed => do
    let isSet ← flags.bitIsSet loc
    if isSet then return (some loc, probed ++ [loc]) else probe flags locs (probed ++ [loc])

lemma and_seven_lt (n : ℕ) : n &&& 7 < 8 := and_lt_two_pow n (by decide : 7 < 2 ^ 3)

def nextLoc (locs : Fin 8 → Fin size.val) (last_loc : ℕ) : Fin size.val :=
  locs ⟨(1 + (List.ofFn locs).findIdx fun loc => loc.val == last_loc) &&& 7, and_seven_lt _⟩

def place (c : Cache Element size) (loc : Fin size.val) (e : Element) (last_epoch : Bool) :
    Except OutOfBounds (Cache Element size) := do
  let kept ← pleaseKeep { c with table := Function.update c.table loc e } loc
  return kept.setEpoch loc last_epoch

def swap (c : Cache Element size) (loc : Fin size.val) (e : Element) (last_epoch : Bool) : Cache Element size :=
  setEpoch { c with table := Function.update c.table loc e } loc last_epoch

section Insert
variable (hash_function : Fin 8 → Element → BitVec 32)

/-- The loop of `insert` with the iterations that are left. The list of probed slots is read by no call. -/
def insertLoop : ℕ → Cache Element size → Element → ℕ → Bool → List (Fin size.val) →
    Except OutOfBounds (Cache Element size × List (Fin size.val))
  | 0, c, _, _, _, probed => .ok (c, probed)
  | depth + 1, c, e, last_loc, last_epoch, probed => do
    let locs := computeHashes hash_function size e
    match ← probe c.collection_flags (List.ofFn locs) probed with
    | (some loc, probed) =>
      let placed ← c.place loc e last_epoch
      return (placed, probed)
    | (none, probed) =>
      let loc := nextLoc locs last_loc
      insertLoop depth (c.swap loc e last_epoch) (c.table loc) loc.val (c.epoch_flags loc) probed

variable [DecidableEq Element]

def findSlot (c : Cache Element size) (e : Element) : Option (Fin size.val) :=
  (List.ofFn (computeHashes hash_function size e)).find? fun loc => c.table loc = e

/-- `cache::insert`. -/
def insert (c : Cache Element size) (e : Element) :
    Except OutOfBounds (Cache Element size × List (Fin size.val)) := do
  let c ← c.epochCheck
  match c.findSlot hash_function e with
  | some loc =>
    let kept ← c.pleaseKeep loc
    return (kept.setEpoch loc true, [])
  | none => insertLoop hash_function c.depth_limit c e invalid true []

/-- `cache::contains`. -/
def contains (c : Cache Element size) (e : Element) (erase : Bool) :
    Except OutOfBounds (Cache Element size × Bool) :=
  match c.findSlot hash_function e with
  | some loc =>
    if erase then do
      let erasable ← c.allowErase loc
      return (erasable, true)
    else .ok (c, true)
  | none => .ok (c, false)

/-- The calls on a cache. -/
inductive Call (Element : Type) where
  | insert (e : Element)
  | contains (e : Element) (erase : Bool)

def Call.element : Call Element → Element
  | .insert e => e
  | .contains e _ => e

def call (c : Cache Element size) : Call Element → Except OutOfBounds (Cache Element size)
  | .insert e => do return (← c.insert hash_function e).1
  | .contains e erase => do return (← c.contains hash_function e erase).1

def run (c : Cache Element size) (calls : List (Call Element)) : Except OutOfBounds (Cache Element size) :=
  calls.foldlM (call hash_function) c

end Insert
end Cache
end MutableBitcoin

/-! ## What the cuckoo cache promises -/

namespace MutableBitcoin
open Lib Lib.CuckooTable List Function Nat Set

namespace BitPackedAtomicFlags

def isErasable (flags : BitPackedAtomicFlags) (s : ℕ) : Bool :=
  (flags.mem.getD (s >>> 3) 0).getLsbD (s &&& 7)

/-- There is a flag for each slot. -/
def InBounds (flags : BitPackedAtomicFlags) (size : ℕ) : Prop := size ≤ 8 * flags.mem.length

variable {flags : BitPackedAtomicFlags} {size s : ℕ}

lemma InBounds.byte_lt (h : flags.InBounds size) (hs : s < size) : s >>> 3 < flags.mem.length := by
  rw [shiftRight_eq_div_pow]
  unfold InBounds at h
  omega

lemma InBounds.getElem? (h : flags.InBounds size) (hs : s < size) :
    flags.mem[s >>> 3]? = some (flags.mem.getD (s >>> 3) 0) := by
  rw [getD_eq_getElem?_getD, getElem?_eq_getElem (h.byte_lt hs), Option.getD_some]

lemma slot_eq_iff (s t : ℕ) : t = s ↔ t >>> 3 = s >>> 3 ∧ t &&& 7 = s &&& 7 := by
  have hmod : ∀ n : ℕ, n &&& 7 = n % 8 := fun n => and_two_pow_sub_one_eq_mod n 3
  rw [hmod, hmod, shiftRight_eq_div_pow, shiftRight_eq_div_pow]
  omega

lemma getLsbD_one_shiftLeft {k : ℕ} (hk : k < 8) (j : ℕ) : (1#8 <<< k).getLsbD j = decide (j = k) := by
  rw [← BitVec.twoPow_eq, BitVec.getLsbD_twoPow]
  simp [hk, eq_comm]

lemma InBounds.bitIsSet (h : flags.InBounds size) (hs : s < size) :
    flags.bitIsSet s = .ok (flags.isErasable s) := by
  have hk := Cache.and_seven_lt s
  rw [BitPackedAtomicFlags.bitIsSet, h.getElem? hs]
  simp only [Except.ok.injEq, isErasable]
  generalize flags.mem.getD (s >>> 3) 0 = byte
  cases hbit : byte.getLsbD (s &&& 7) with
  | true =>
    rw [bne_iff_ne]
    intro hzero
    have hget := congrArg (fun x => x.getLsbD (s &&& 7)) hzero
    simp [BitVec.getLsbD_and, getLsbD_one_shiftLeft hk, hbit] at hget
  | false =>
    rw [bne_eq_false_iff_eq]
    refine BitVec.eq_of_getLsbD_eq fun j hj => ?_
    rw [BitVec.getLsbD_and, getLsbD_one_shiftLeft hk]
    by_cases hjs : j = s &&& 7
    · subst hjs
      simp [hbit]
    · simp [hjs]

lemma InBounds.getD_set (h : flags.InBounds size) (hs : s < size) (byte : BitVec 8) (t : ℕ) :
    (flags.mem.set (s >>> 3) byte).getD (t >>> 3) 0 =
      if t >>> 3 = s >>> 3 then byte else flags.mem.getD (t >>> 3) 0 := by
  simp only [getD_eq_getElem?_getD, getElem?_set, h.byte_lt hs, if_true, @eq_comm _ (s >>> 3)]
  split_ifs <;> rfl

/-- One flag has been written. -/
structure Changed (flags flags' : BitPackedAtomicFlags) (s : ℕ) (value : Bool) : Prop where
  length : flags'.mem.length = flags.mem.length
  isErasable : ∀ t, flags'.isErasable t = if t = s then value else flags.isErasable t

lemma InBounds.bitSet (h : flags.InBounds size) (hs : s < size) :
    ∃ flags', flags.bitSet s = .ok flags' ∧ Changed flags flags' s true := by
  have hk := Cache.and_seven_lt s
  rw [BitPackedAtomicFlags.bitSet, h.getElem? hs]
  refine ⟨_, rfl, by simp, fun t => ?_⟩
  simp only [BitPackedAtomicFlags.isErasable, h.getD_set hs _ t, slot_eq_iff s t]
  by_cases hbyte : t >>> 3 = s >>> 3
  · simp only [hbyte, if_true, true_and, BitVec.getLsbD_or, getLsbD_one_shiftLeft hk]
    split_ifs with hbit <;> simp [hbit]
  · simp [hbyte]

lemma InBounds.bitUnset (h : flags.InBounds size) (hs : s < size) :
    ∃ flags', flags.bitUnset s = .ok flags' ∧ Changed flags flags' s false := by
  have hk := Cache.and_seven_lt s
  rw [BitPackedAtomicFlags.bitUnset, h.getElem? hs]
  refine ⟨_, rfl, by simp, fun t => ?_⟩
  simp only [BitPackedAtomicFlags.isErasable, h.getD_set hs _ t, slot_eq_iff s t]
  by_cases hbyte : t >>> 3 = s >>> 3
  · have ht := Cache.and_seven_lt t
    simp only [hbyte, if_true, true_and, BitVec.getLsbD_and, BitVec.getLsbD_not, getLsbD_one_shiftLeft hk, ht]
    split_ifs with hbit <;> simp [hbit]
  · simp [hbyte]

lemma InBounds.of_length {flags' : BitPackedAtomicFlags} (h : flags.InBounds size)
    (hlength : flags'.mem.length = flags.mem.length) : flags'.InBounds size := by
  rwa [InBounds, hlength]

lemma inBounds_setup (h : size + 7 < 2 ^ 32) : (setup size).InBounds size := by
  rw [InBounds, setup, length_replicate, mod_eq_of_lt h]
  omega

lemma isErasable_setup (h : size + 7 < 2 ^ 32) (hs : s < size) : (setup size).isErasable s = true := by
  have hlt : s >>> 3 < (size + 7) / 8 := by
    rw [shiftRight_eq_div_pow]
    omega
  have hbyte : ((setup size).mem.getD (s >>> 3) 0) = 0xFF#8 := by
    rw [setup, mod_eq_of_lt h, getD_eq_getElem?_getD, getElem?_replicate_of_lt hlt,
      Option.getD_some]
  rw [isErasable, hbyte, show (0xFF#8) = BitVec.allOnes 8 by decide, BitVec.getLsbD_allOnes]
  simpa using Cache.and_seven_lt s

end BitPackedAtomicFlags

namespace Cache
variable {Element : Type} {size : TableSize}

def isErasable (c : Cache Element size) (s : Fin size.val) : Bool := c.collection_flags.isErasable s

/-- The slots of an element. -/
def slots (hash_function : Fin 8 → Element → BitVec 32) (size : TableSize) (e : Element) : Set (Fin size.val) :=
  Set.range (computeHashes hash_function size e)

/-- Only flags and counters of epochs have changed. -/
structure Ages (c c' : Cache Element size) : Prop where
  table : c'.table = c.table
  depth_limit : c'.depth_limit = c.depth_limit
  inBounds : c'.collection_flags.InBounds size.val
  isErasable : ∀ s, c.isErasable s = true → c'.isErasable s = true

variable {c c' : Cache Element size}

lemma ages_refl (h : c.collection_flags.InBounds size.val) : Ages c c := ⟨rfl, rfl, h, fun _ hs => hs⟩

lemma exists_allowErase (h : c.collection_flags.InBounds size.val) (n : Fin size.val) :
    ∃ c', c.allowErase n = .ok c' ∧ Ages c c' := by
  obtain ⟨flags, hset, hchanged⟩ := h.bitSet n.isLt
  refine ⟨{ c with collection_flags := flags }, by simp only [allowErase, hset, ok_bind]; rfl, rfl, rfl,
    h.of_length hchanged.length, fun s hs => ?_⟩
  simp only [Cache.isErasable, hchanged.isErasable] at hs ⊢
  split_ifs
  · rfl
  · exact hs

lemma exists_pleaseKeep (h : c.collection_flags.InBounds size.val) (n : Fin size.val) :
    ∃ flags, c.pleaseKeep n = .ok { c with collection_flags := flags } ∧
      BitPackedAtomicFlags.Changed c.collection_flags flags n false := by
  obtain ⟨flags, hunset, hchanged⟩ := h.bitUnset n.isLt
  exact ⟨flags, by simp only [pleaseKeep, hunset, ok_bind]; rfl, hchanged⟩

lemma exists_ageSlot (h : Ages c c') (n : Fin size.val) : ∃ c'', c'.ageSlot n = .ok c'' ∧ Ages c c'' := by
  unfold ageSlot
  split_ifs with hepoch
  · exact ⟨_, rfl, h.table, h.depth_limit, h.inBounds, h.isErasable⟩
  · obtain ⟨c'', hc, hages⟩ := exists_allowErase h.inBounds n
    exact ⟨c'', hc, hages.table.trans h.table, hages.depth_limit.trans h.depth_limit, hages.inBounds,
      fun s hs => hages.isErasable s (h.isErasable s hs)⟩

lemma exists_countUnused (h : c.collection_flags.InBounds size.val) (slots : List (Fin size.val)) (n : ℕ) :
    ∃ count, c.countUnused slots n = .ok count := by
  induction slots generalizing n with
  | nil => exact ⟨n, rfl⟩
  | cons i slots ih =>
    unfold countUnused
    split_ifs with hepoch
    · rw [h.bitIsSet i.isLt, ok_bind]
      exact ih _
    · exact ih n

lemma exists_epochCheck (h : c.collection_flags.InBounds size.val) :
    ∃ c', c.epochCheck = .ok c' ∧ Ages c c' := by
  unfold epochCheck
  split_ifs with hcounter
  · exact ⟨_, rfl, rfl, rfl, h, fun _ hs => hs⟩
  · obtain ⟨count, hcount⟩ := exists_countUnused h (List.finRange size.val) 0
    rw [scanEpoch, hcount, ok_bind]
    split_ifs with hepoch
    · obtain ⟨aged, hrun, hages⟩ := foldlM_ok (I := fun _ aged => Ages c aged)
        (fun _ t _ _ _ hI => exists_ageSlot hI t) (ages_refl h) (l := List.finRange size.val)
      rw [hrun, ok_bind]
      exact ⟨_, rfl, hages.table, hages.depth_limit, hages.inBounds, hages.isErasable⟩
    · exact ⟨_, rfl, rfl, rfl, h, fun _ hs => hs⟩

section Insert
variable (hash_function : Fin 8 → Element → BitVec 32)

lemma probe_eq (h : c.collection_flags.InBounds size.val) (locs probed : List (Fin size.val)) :
    (∃ loc ∈ locs, ∃ more, probe c.collection_flags locs probed = .ok (some loc, probed ++ more) ∧
      c.isErasable loc = true ∧ loc ∈ more) ∨
    (probe c.collection_flags locs probed = .ok (none, probed ++ locs) ∧
      ∀ loc ∈ locs, c.isErasable loc = false) := by
  induction locs generalizing probed with
  | nil => exact .inr ⟨by simp [probe], by simp⟩
  | cons loc locs ih =>
    unfold probe
    rw [h.bitIsSet loc.isLt, ok_bind]
    split_ifs with hset
    · exact .inl ⟨loc, mem_cons_self, [loc], rfl, hset, mem_singleton_self loc⟩
    · obtain ⟨loc', hmem, more, hrun, herasable, hmore⟩ | ⟨hrun, hnone⟩ := ih (probed ++ [loc])
      · refine .inl ⟨loc', mem_cons_of_mem _ hmem, loc :: more, ?_, herasable,
          mem_cons_of_mem _ hmore⟩
        rw [hrun, append_assoc, singleton_append]
      · refine .inr ⟨by rw [hrun, append_assoc, singleton_append], ?_⟩
        exact forall_mem_cons.mpr ⟨eq_false_of_ne_true hset, hnone⟩

lemma mem_ofFn_slots {e : Element} {loc : Fin size.val} :
    loc ∈ List.ofFn (computeHashes hash_function size e) ↔ loc ∈ slots hash_function size e := by
  rw [mem_ofFn]
  rfl

lemma nextLoc_mem (size : TableSize) (e : Element) (last_loc : ℕ) :
    nextLoc (computeHashes hash_function size e) last_loc ∈ slots hash_function size e :=
  mem_range_self _

lemma findSlot_eq_some [DecidableEq Element] {e : Element} {loc : Fin size.val}
    (h : c.findSlot hash_function e = some loc) : c.table loc = e := by
  simpa using find?_some h

variable [Inhabited Element]

/-- Elements lie in their slots, and free slots may be written. -/
structure Sound (c : Cache Element size) : Prop extends Placed (slots hash_function size) c.table where
  inBounds : c.collection_flags.InBounds size.val
  free_erasable : ∀ s, c.table s = default → c.isErasable s = true

/-- The invariant of the loop of `insert`, whose element `e` is not in the table. -/
structure Holding (c : Cache Element size) (e : Element) : Prop
    extends InHand (slots hash_function size) c.table e where
  inBounds : c.collection_flags.InBounds size.val
  free_erasable : ∀ s, c.table s = default → c.isErasable s = true

variable {hash_function} {e : Element} {loc : Fin size.val}

lemma Holding.sound (h : Holding hash_function c e) : Sound hash_function c :=
  ⟨h.toPlaced, h.inBounds, h.free_erasable⟩

lemma Holding.exists_place (h : Holding hash_function c e) (hloc : loc ∈ slots hash_function size e)
    (epoch : Bool) : ∃ c', c.place loc e epoch = .ok c' ∧ Sound hash_function c' ∧
      c'.table = Function.update c.table loc e := by
  obtain ⟨flags, hunset, hchanged⟩ := h.inBounds.bitUnset loc.isLt
  refine ⟨_, by simp only [place, pleaseKeep, hunset, ok_bind]; rfl,
    ⟨h.put hloc, h.inBounds.of_length hchanged.length, fun s hs => ?_⟩, rfl⟩
  simp only [setEpoch] at hs
  by_cases heq : s = loc
  · rw [heq, update_self] at hs
    exact absurd hs h.ne_default
  · rw [update_of_ne heq] at hs
    have hne : s.val ≠ loc.val := fun hval => heq (Fin.ext hval)
    simp only [Cache.isErasable, setEpoch, hchanged.isErasable, hne, if_false]
    exact h.free_erasable s hs

lemma Holding.ne_default_of_kept (h : Holding hash_function c e) (hkept : c.isErasable loc = false) :
    c.table loc ≠ default := by
  intro hfree
  rw [h.free_erasable loc hfree] at hkept
  cases hkept

lemma Holding.swap (h : Holding hash_function c e) (hloc : loc ∈ slots hash_function size e)
    (hkept : c.isErasable loc = false) (epoch : Bool) :
    Holding hash_function (c.swap loc e epoch) (c.table loc) where
  toInHand := h.toInHand.swap hloc (h.ne_default_of_kept hkept)
  inBounds := h.inBounds
  free_erasable s hs := by
    simp only [Cache.swap, setEpoch] at hs
    by_cases heq : s = loc
    · rw [heq, update_self] at hs
      exact absurd hs h.ne_default
    · rw [update_of_ne heq] at hs
      exact h.free_erasable s hs

/-- What is stored after an insertion of `e` into a table. Either an erasable slot that was probed is filled in
the end, whose element is dropped, or there is none and the loop drops the element that it holds in the end. -/
inductive Change (table : Fin size.val → Element) (erasable : Fin size.val → Bool) (e : Element)
    (probed : List (Fin size.val)) (after : Set Element) : Prop
  | filled (loc : Fin size.val) (hloc : loc ∈ probed) (herasable : erasable loc = true)
      (heq : after = Insert.insert e (stored table \ {table loc}))
  | gaveUp (d : Element) (hkept : ∀ loc ∈ probed, erasable loc = false)
      (heq : Insert.insert d after = Insert.insert e (stored table))

lemma exists_insertLoop (depth : ℕ) (h : Holding hash_function c e) (last_loc : ℕ) (last_epoch : Bool)
    (probed : List (Fin size.val)) :
    ∃ c' more, insertLoop hash_function depth c e last_loc last_epoch probed = .ok (c', probed ++ more) ∧
      Sound hash_function c' ∧ Change c.table c.isErasable e more (stored c'.table) := by
  induction depth generalizing c e last_loc last_epoch probed with
  | zero => exact ⟨c, [], by rw [append_nil]; rfl, h.sound, .gaveUp e (by simp) rfl⟩
  | succ depth ih =>
    rw [insertLoop]
    obtain ⟨loc, hmem, more, hrun, herasable, hmore⟩ | ⟨hrun, hnone⟩ :=
      probe_eq h.inBounds (List.ofFn (computeHashes hash_function size e)) probed
    · obtain ⟨c', hplace, hsound, htable⟩ := h.exists_place ((mem_ofFn_slots hash_function).mp hmem) last_epoch
      refine ⟨c', more, ?_, hsound, .filled loc hmore herasable ?_⟩
      · simp only [hrun, ok_bind, hplace]
        rfl
      · rw [htable, h.stored_put]
    · have hloc := nextLoc_mem hash_function size e last_loc
      set loc := nextLoc (computeHashes hash_function size e) last_loc
      have hkept := hnone loc ((mem_ofFn_slots hash_function).mpr hloc)
      have hne := h.ne_default_of_kept hkept
      have hstored := h.stored_swap (s := loc) hne
      obtain ⟨c', more, hloop, hsound, hchange⟩ := ih (h.swap hloc hkept last_epoch) loc.val
        (c.epoch_flags loc) (probed ++ List.ofFn (computeHashes hash_function size e))
      refine ⟨c', List.ofFn (computeHashes hash_function size e) ++ more, ?_, hsound, ?_⟩
      · simp only [hrun, ok_bind]
        rw [hloop, append_assoc]
      · cases hchange with
        | filled loc' hloc' herasable heq =>
          -- Flags do not change in a swap, so the slot filled in the end is none of those swapped.
          have hslot : loc' ≠ loc := by
            rintro rfl
            exact Bool.false_ne_true (hkept.symm.trans herasable)
          have hsame : (c.swap loc e last_epoch).table loc' = c.table loc' :=
            update_of_ne hslot _ _
          have hdistinct : c.table loc ≠ c.table loc' := fun heq => hslot (h.one_slot loc loc' hne heq).symm
          have hheld : e ≠ c.table loc' := (h.not_stored loc').symm
          refine .filled loc' (mem_append_right _ hloc') herasable ?_
          rw [heq, hsame, ← insert_sdiff_of_notMem _ (by simpa using hdistinct),
            ← insert_sdiff_of_notMem _ (by simpa using hheld)]
          exact congrArg (· \ {c.table loc'}) hstored
        | gaveUp d hmore heq =>
          refine .gaveUp d (fun loc' hmem => ?_) (heq.trans hstored)
          obtain hmem | hmem := mem_append.mp hmem
          · exact hnone loc' hmem
          · exact hmore loc' hmem

section Change
variable {table : Fin size.val → Element} {erasable : Fin size.val → Bool} {probed : List (Fin size.val)}
  {after : Set Element}

lemma Change.subset (h : Change table erasable e probed after) :
    after ⊆ Insert.insert e (stored table) := by
  cases h with
  | filled loc hloc herasable heq =>
    rw [heq]
    exact insert_subset_insert sdiff_subset
  | gaveUp d hkept heq =>
    rw [← heq]
    exact subset_insert _ _

lemma Change.exists_dropped (h : Change table erasable e probed after) :
    ∃ d, (∀ x ∈ Insert.insert e (stored table) \ after, x = d) ∧
      ((∃ loc ∈ probed, erasable loc = true) → ∃ loc, table loc = d ∧ erasable loc = true) := by
  cases h with
  | filled loc hloc herasable heq =>
    refine ⟨table loc, ?_, fun _ => ⟨loc, rfl, herasable⟩⟩
    rintro x ⟨hx, hnot⟩
    rw [heq, mem_insert_iff, mem_sdiff, mem_singleton_iff] at hnot
    by_contra hne
    obtain rfl | hx := hx
    · exact hnot (.inl rfl)
    · exact hnot (.inr ⟨hx, hne⟩)
  | gaveUp d hkept heq =>
    refine ⟨d, ?_, ?_⟩
    · rintro x ⟨hx, hnot⟩
      rw [← heq, mem_insert_iff] at hx
      exact hx.resolve_right hnot
    · rintro ⟨loc, hloc, herasable⟩
      exact absurd ((hkept loc hloc).symm.trans herasable) Bool.false_ne_true

end Change

lemma Sound.of_ages (h : Sound hash_function c) (hages : Ages c c') : Sound hash_function c' where
  toPlaced := by rw [hages.table]; exact h.toPlaced
  inBounds := hages.inBounds
  free_erasable s hs := by
    rw [hages.table] at hs
    exact hages.isErasable s (h.free_erasable s hs)

lemma sound_setup (hsize : size.val + 7 < 2 ^ 32) (depth_limit : ℕ) :
    Sound hash_function (setup size depth_limit) where
  own_slot _ hs := absurd rfl hs
  one_slot _ _ hs _ := absurd rfl hs
  inBounds := BitPackedAtomicFlags.inBounds_setup hsize
  free_erasable s _ := BitPackedAtomicFlags.isErasable_setup hsize s.isLt

section Calls
variable [DecidableEq Element]

lemma Sound.not_stored (h : Sound hash_function c) (he : e ≠ default)
    (hnone : c.findSlot hash_function e = none) (s : Fin size.val) : c.table s ≠ e := by
  rintro rfl
  have hmem := (mem_ofFn_slots hash_function).mpr (h.own_slot s he)
  have hne := find?_eq_none.mp hnone s hmem
  simp at hne

lemma Sound.findSlot_isSome_iff (h : Sound hash_function c) (he : e ≠ default) :
    (c.findSlot hash_function e).isSome = true ↔ e ∈ stored c.table := by
  cases hfind : c.findSlot hash_function e with
  | none => simpa [mem_stored, he] using h.not_stored he hfind
  | some loc => simpa [mem_stored, he] using ⟨loc, findSlot_eq_some hash_function hfind⟩

lemma Sound.exists_insert (h : Sound hash_function c) (he : e ≠ default) :
    ∃ aged c' probed, c.epochCheck = .ok aged ∧ Ages c aged ∧
      c.insert hash_function e = .ok (c', probed) ∧ Sound hash_function c' ∧
      Change aged.table aged.isErasable e probed (stored c'.table) := by
  obtain ⟨aged, hcheck, hages⟩ := exists_epochCheck h.inBounds
  have haged := h.of_ages hages
  cases hfind : aged.findSlot hash_function e with
  | some loc =>
    have htable := findSlot_eq_some hash_function hfind
    obtain ⟨flags, hkeep, hchanged⟩ := exists_pleaseKeep haged.inBounds loc
    refine ⟨aged, setEpoch { aged with collection_flags := flags } loc true, [], hcheck, hages, ?_,
      ⟨haged.toPlaced, haged.inBounds.of_length hchanged.length, ?_⟩, .gaveUp e (by simp) rfl⟩
    · simp only [Cache.insert, hcheck, ok_bind, hfind, hkeep]
      rfl
    · intro s hs
      have hne : s ≠ loc := by
        rintro rfl
        exact he (htable.symm.trans hs)
      have hval : s.val ≠ loc.val := fun hval => hne (Fin.ext hval)
      simp only [Cache.isErasable, setEpoch, hchanged.isErasable, hval, if_false]
      exact haged.free_erasable s hs
  | none =>
    have hholding : Holding hash_function aged e :=
      ⟨⟨haged.toPlaced, he, haged.not_stored he hfind⟩, haged.inBounds, haged.free_erasable⟩
    obtain ⟨c', probed, hloop, hsound, hchange⟩ :=
      exists_insertLoop aged.depth_limit hholding invalid true []
    refine ⟨aged, c', probed, hcheck, hages, ?_, hsound, hchange⟩
    simp only [Cache.insert, hcheck, ok_bind, hfind]
    exact hloop

lemma Sound.exists_contains (h : Sound hash_function c) (e : Element) (erase : Bool) :
    ∃ c', c.contains hash_function e erase = .ok (c', (c.findSlot hash_function e).isSome) ∧
      Sound hash_function c' ∧ c'.table = c.table := by
  cases hfind : c.findSlot hash_function e with
  | none => exact ⟨c, by rw [contains, hfind]; rfl, h, rfl⟩
  | some loc =>
    cases erase with
    | false => exact ⟨c, by rw [contains, hfind]; rfl, h, rfl⟩
    | true =>
      obtain ⟨c', hallow, hages⟩ := exists_allowErase h.inBounds loc
      refine ⟨c', ?_, h.of_ages hages, hages.table⟩
      simp only [contains, hfind, if_true, hallow, ok_bind]
      rfl

variable (hash_function)

/-- What a cache guarantees about the elements inserted. -/
structure Promises (c : Cache Element size) (inserted : Set Element) : Prop where
  own_slot : ∀ s, c.table s ≠ default → ∃ i, computeHashes hash_function size (c.table s) i = s
  one_slot : ∀ s s', c.table s ≠ default → c.table s = c.table s' → s = s'
  contains_inserted : ∀ e erase c', e ≠ default → c.contains hash_function e erase = .ok (c', true) →
    e ∈ inserted
  insert_changes : ∀ e, e ≠ default → ∃ aged c' probed,
    c.epochCheck = .ok aged ∧ c.insert hash_function e = .ok (c', probed) ∧
    stored c'.table ⊆ Insert.insert e (stored c.table) ∧
    (Insert.insert e (stored c.table) \ stored c'.table).Subsingleton ∧
    ∀ d ∈ Insert.insert e (stored c.table) \ stored c'.table,
      (∃ s ∈ probed, aged.collection_flags.bitIsSet s.val = .ok true) →
      ∃ s : Fin size.val, aged.table s = d ∧ aged.collection_flags.bitIsSet s.val = .ok true

variable {hash_function}

lemma Sound.promises (h : Sound hash_function c) {inserted : Set Element}
    (hinserted : stored c.table ⊆ inserted) : Promises hash_function c inserted where
  own_slot := h.own_slot
  one_slot := h.one_slot
  contains_inserted e erase c' he hcontains := by
    obtain ⟨c'', hrun, -, -⟩ := h.exists_contains e erase
    rw [hrun, Except.ok.injEq, Prod.mk.injEq] at hcontains
    exact hinserted ((h.findSlot_isSome_iff he).mp hcontains.2)
  insert_changes e he := by
    obtain ⟨aged, c', probed, hcheck, hages, hinsert, -, hchange⟩ := h.exists_insert he
    have hset : ∀ s : Fin size.val,
        aged.collection_flags.bitIsSet s.val = .ok true ↔ aged.isErasable s = true := by
      intro s
      rw [hages.inBounds.bitIsSet s.isLt, Except.ok.injEq]
      rfl
    obtain ⟨d, hdropped, hmarked⟩ := hchange.exists_dropped
    have hsubset := hchange.subset
    rw [hages.table] at hdropped hsubset
    refine ⟨aged, c', probed, hcheck, hinsert, hsubset,
      fun x hx y hy => (hdropped x hx).trans (hdropped y hy).symm, fun x hx hprobed => ?_⟩
    simp only [hset] at hprobed ⊢
    rw [hdropped x hx]
    exact hmarked hprobed

lemma Sound.exists_call (h : Sound hash_function c) (call : Call Element) (he : call.element ≠ default) :
    ∃ c', c.call hash_function call = .ok c' ∧ Sound hash_function c' ∧
      stored c'.table ⊆ stored c.table ∪ {x | call = Call.insert x} := by
  cases call with
  | insert e =>
    have he' : e ≠ default := he
    obtain ⟨aged, c', probed, -, hages, hinsert, hsound, hchange⟩ := h.exists_insert he'
    refine ⟨c', by simp only [call, hinsert, ok_bind]; rfl, hsound, fun x hx => ?_⟩
    have hin := hchange.subset hx
    rw [hages.table] at hin
    obtain rfl | hin := hin
    · exact .inr rfl
    · exact .inl hin
  | contains e erase =>
    obtain ⟨c', hcontains, hsound, htable⟩ := h.exists_contains e erase
    refine ⟨c', by simp only [call, hcontains, ok_bind]; rfl, hsound, ?_⟩
    rw [htable]
    exact subset_union_left

lemma exists_run (hsize : size.val + 7 < 2 ^ 32) (depth_limit : ℕ) (calls : List (Call Element))
    (hcalls : ∀ call ∈ calls, call.element ≠ default) :
    ∃ c, run hash_function (setup size depth_limit) calls = .ok c ∧ Sound hash_function c ∧
      stored c.table ⊆ {x | Call.insert x ∈ calls} := by
  refine foldlM_ok (I := fun done c => Sound hash_function c ∧ stored c.table ⊆ {x | Call.insert x ∈ done})
    (fun done call rest c hl hI => ?_) ⟨sound_setup hsize depth_limit, ?_⟩
  · have hmem : call ∈ calls := by
      rw [← hl]
      exact mem_append_right _ mem_cons_self
    obtain ⟨c', hcall, hsound, hsubset⟩ := hI.1.exists_call call (hcalls call hmem)
    refine ⟨c', hcall, hsound, fun e he => ?_⟩
    obtain he | he := hsubset he
    · exact mem_append_left _ (hI.2 he)
    · exact mem_append_right _ (mem_singleton.mpr he.symm)
  · rintro e ⟨he, s, rfl⟩
    exact absurd rfl he

variable (hash_function)

lemma insert_outOfBounds (hsize : 2 ^ 32 ≤ size.val + 7) {depth_limit : ℕ} (hdepth : 1 ≤ depth_limit)
    (he : e ≠ default) :
    (setup size depth_limit).insert hash_function e = .error ⟨computeHashes hash_function size e 0⟩ := by
  have hlt := size.lt
  have hmem : (BitPackedAtomicFlags.setup size.val).mem = [] := by
    rw [BitPackedAtomicFlags.setup, replicate_eq_nil_iff]
    omega
  obtain ⟨depth, rfl⟩ := Nat.exists_eq_add_of_le' hdepth
  have hcounter : (setup size (depth + 1) : Cache Element size).epoch_heuristic_counter ≠ 0 := by
    simp only [setup]
    omega
  have hfind : ∀ n, findSlot hash_function
      { (setup size (depth + 1) : Cache Element size) with epoch_heuristic_counter := n } e = none := by
    intro n
    rw [findSlot, find?_eq_none]
    intro loc _
    exact fun hdefault => he (of_decide_eq_true hdefault).symm
  have hprobe : ∀ rest : List (Fin size.val),
      probe (BitPackedAtomicFlags.setup size.val) (computeHashes hash_function size e 0 :: rest) [] =
        .error ⟨computeHashes hash_function size e 0⟩ := by
    intro rest
    simp only [probe, BitPackedAtomicFlags.bitIsSet, hmem, getElem?_nil]
    rfl
  rw [Cache.insert, epochCheck, if_pos hcounter, ok_bind, hfind]
  change (do
    let r ← probe (BitPackedAtomicFlags.setup size.val)
      (List.ofFn (computeHashes hash_function size e)) []
    _) = _
  rw [ofFn_succ, hprobe]
  rfl

lemma run_outOfBounds (hsize : 2 ^ 32 ≤ size.val + 7) {depth_limit : ℕ} (hdepth : 1 ≤ depth_limit)
    (he : e ≠ default) (c : Cache Element size) :
    run hash_function (setup size depth_limit) [.insert e] ≠ .ok c := by
  have hinsert := insert_outOfBounds hash_function hsize hdepth he
  simp only [run, foldlM_cons, call, hinsert]
  exact fun h => by cases h

/-- The cache keeps its promises in every run exactly if the padding of its flags does not wrap. -/
theorem promises_iff (size : TableSize) {depth_limit : ℕ} (hdepth : 1 ≤ depth_limit) (he : e ≠ default) :
    (∀ calls : List (Call Element), (∀ call ∈ calls, call.element ≠ default) →
      ∃ c, run hash_function (setup size depth_limit) calls = .ok c ∧
        Promises hash_function c {x | Call.insert x ∈ calls}) ↔
      size.val + 7 < 2 ^ 32 := by
  constructor
  · intro h
    by_contra hsize
    obtain ⟨c, hrun, -⟩ := h [.insert e] (by simpa [Call.element] using he)
    exact run_outOfBounds hash_function (Nat.le_of_not_lt hsize) hdepth he c hrun
  · intro hsize calls hcalls
    obtain ⟨c, hrun, hsound, hsubset⟩ := exists_run hsize depth_limit calls hcalls
    exact ⟨c, hrun, hsound.promises hsubset⟩

end Calls

end Insert

/-- A cache of four slots. -/
theorem promises_iff_four :
    (∀ calls : List (Call ℕ), (∀ call ∈ calls, call.element ≠ default) →
      ∃ c, run (fun i e => BitVec.ofNat 32 ((e + 3 * i.val) * 536870912))
          (setup ⟨4, by decide, by decide⟩ 2) calls = .ok c ∧
        Promises (fun i e => BitVec.ofNat 32 ((e + 3 * i.val) * 536870912)) c {x | Call.insert x ∈ calls}) ↔
      4 + 7 < 2 ^ 32 :=
  promises_iff _ ⟨4, by decide, by decide⟩ (by decide) (by decide : (1 : ℕ) ≠ default)

/-- For this number of slots the flags get no memory at all. -/
theorem promises_fail_wrapped :
    ¬ ∀ calls : List (Call ℕ), (∀ call ∈ calls, call.element ≠ default) →
      ∃ c, run (fun i e => BitVec.ofNat 32 ((e + 3 * i.val) * 536870912))
          (setup ⟨4294967289, by decide, by decide⟩ 32) calls = .ok c ∧
        Promises (fun i e => BitVec.ofNat 32 ((e + 3 * i.val) * 536870912)) c {x | Call.insert x ∈ calls} := by
  intro h
  obtain ⟨c, hrun, -⟩ := h [.insert 1] (by simp [Call.element])
  exact run_outOfBounds _ (by decide) (by decide) (by decide : (1 : ℕ) ≠ default) c hrun

end Cache
end MutableBitcoin
