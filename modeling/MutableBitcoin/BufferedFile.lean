import MutableBitcoin.Uint256

/-!
# The buffered file

`CBufferedFile` of `streams.h`: a ring buffer in front of a file, with a promise to rewind some bytes. Positions are
`uint64_t` and wrap, places in the buffer are kept in an `unsigned int`.
-/

namespace MutableBitcoin
open Lib List Nat

/-- A file with its position and its end mark. -/
structure SourceFile where
  contents : Bytes
  pos : ℕ
  feof : Bool

/-- The bytes of a file, whose size is an `off_t`. -/
structure FileBytes where
  bytes : Bytes
  length_lt : bytes.length < 2 ^ 63

def SourceFile.fread (src : SourceFile) (count : ℕ) : Bytes × SourceFile :=
  let bytes := (src.contents.drop src.pos).take count
  (bytes, { src with pos := src.pos + bytes.length, feof := src.feof || decide (bytes.length < count) })

/-- How a call can fail. -/
inductive BufferFailure where
  | endOfFile
  | freadFailed
  | pastLimit
  | largerThanBuffer
  | outOfBounds
  | endlessLoop
deriving DecidableEq

/-- Subtraction of `uint64_t`. -/
def subUInt64 (a b : ℕ) : ℕ := (a + (2 ^ 64 - b)) % 2 ^ 64

/-- What `Fill` asked of the file, and where the reader stood. -/
structure FillRequest where
  nReadPos : ℕ
  pos : ℕ
  readNow : ℕ

/-- The trace `fills` is read by no call. -/
structure CBufferedFile where
  src : SourceFile
  nSrcPos : ℕ
  nReadPos : ℕ
  nReadLimit : ℕ
  nRewind : ℕ
  /-- `vchBuf.size()`. -/
  size : ℕ
  vchBuf : ℕ → UInt8
  fills : List FillRequest

def storeBytes (array : ℕ → UInt8) (pos : ℕ) (bytes : Bytes) : ℕ → UInt8 :=
  fun i => if pos ≤ i then (bytes[i - pos]?).getD (array i) else array i

namespace CBufferedFile

def make (contents : Bytes) (nBufSize nRewindIn : ℕ) : CBufferedFile :=
  ⟨⟨contents, 0, false⟩, 0, 0, 2 ^ 64 - 1, nRewindIn, nBufSize, fun _ => 0, []⟩

variable (b : CBufferedFile)

/-- The number of bytes that `Fill` asks for. -/
def fillSize : ℕ :=
  let pos := b.nSrcPos % b.size % 2 ^ 32
  let readNow := subUInt64 b.size pos % 2 ^ 32
  let nAvail := subUInt64 (subUInt64 b.size (subUInt64 b.nSrcPos b.nReadPos)) b.nRewind % 2 ^ 32
  if nAvail < readNow then nAvail else readNow

/-- `CBufferedFile::Fill`. -/
def fill : Except BufferFailure Bool × CBufferedFile :=
  let pos := b.nSrcPos % b.size % 2 ^ 32
  let readNow := b.fillSize
  if readNow = 0 then (.ok false, b)
  else
    let r := b.src.fread readNow
    let b' := { b with
      src := r.2
      vchBuf := storeBytes b.vchBuf pos r.1
      fills := ⟨b.nReadPos, pos, readNow⟩ :: b.fills }
    if r.1.length = 0 then (.error (if r.2.feof then .endOfFile else .freadFailed), b')
    else (.ok true, { b' with nSrcPos := (b.nSrcPos + r.1.length) % 2 ^ 64 })

/-- `if (nReadPos == nSrcPos) Fill();` -/
def fillIfEmpty : Option BufferFailure × CBufferedFile :=
  if b.nReadPos = b.nSrcPos then
    match b.fill with
    | (.error e, b) => (some e, b)
    | (.ok _, b) => (none, b)
  else (none, b)

def eof : Bool := decide (b.nReadPos = b.nSrcPos) && b.src.feof

/-- The bytes, the exception and the file behind a read. -/
structure ReadResult where
  pch : Bytes
  thrown : Option BufferFailure
  file : CBufferedFile

/-- The loop of `read`, within `fuel` iterations. -/
def readLoop : ℕ → ℕ → Bytes → CBufferedFile → ReadResult
  | _, 0, pch, b => ⟨pch, none, b⟩
  | 0, _ + 1, pch, b => ⟨pch, some .endlessLoop, b⟩
  | fuel + 1, nSize + 1, pch, b =>
    match b.fillIfEmpty with
    | (some e, b) => ⟨pch, some e, b⟩
    | (none, b) =>
      let pos := b.nReadPos % b.size % 2 ^ 32
      let nNow := if b.size < (nSize + 1 + pos) % 2 ^ 64 then subUInt64 b.size pos else nSize + 1
      let nNow := if b.nSrcPos < (nNow + b.nReadPos) % 2 ^ 64 then subUInt64 b.nSrcPos b.nReadPos else nNow
      -- `memcpy` must stay inside both arrays
      if nSize + 1 < nNow ∨ b.size < pos + nNow then ⟨pch, some .outOfBounds, b⟩
      else readLoop fuel (nSize + 1 - nNow) (pch ++ (List.range nNow).map (fun i => b.vchBuf (pos + i)))
        { b with nReadPos := (b.nReadPos + nNow) % 2 ^ 64 }

/-- Each iteration copies a byte unless it repeats for ever. -/
def read (nSize : ℕ) : ReadResult :=
  if b.nReadLimit < (nSize + b.nReadPos) % 2 ^ 64 then ⟨[], some .pastLimit, b⟩
  else if b.size < (nSize + b.nRewind) % 2 ^ 64 then ⟨[], some .largerThanBuffer, b⟩
  else readLoop nSize nSize [] b

def setPos (nPos : ℕ) : Bool × CBufferedFile :=
  if (nPos + b.nRewind) % 2 ^ 64 < b.nSrcPos then (false, { b with nReadPos := subUInt64 b.nSrcPos b.nRewind })
  else if nPos > b.nSrcPos then (false, { b with nReadPos := b.nSrcPos })
  else (true, { b with nReadPos := nPos })

def setLimit (nPos : ℕ) : Bool × CBufferedFile :=
  if nPos < b.nReadPos then (false, b) else (true, { b with nReadLimit := nPos })

/-- The loop of `FindByte`, within `fuel` iterations. -/
def findByteLoop (ch : UInt8) : ℕ → CBufferedFile → Option BufferFailure × CBufferedFile
  | 0, b => (some .endlessLoop, b)
  | fuel + 1, b =>
    match b.fillIfEmpty with
    | (some e, b) => (some e, b)
    | (none, b) =>
      if b.vchBuf (b.nReadPos % b.size) = ch then (none, b)
      else findByteLoop ch fuel { b with nReadPos := (b.nReadPos + 1) % 2 ^ 64 }

/-- A position that wraps meets the end of the file in the end. -/
def findByte (ch : UInt8) : Option BufferFailure × CBufferedFile :=
  b.findByteLoop ch (2 ^ 64 + b.src.contents.length + 1)

/-- A fill does not write over the bytes promised for rewinding. -/
def FillKeeps (size nRewind : ℕ) (f : FillRequest) : Prop :=
  ∀ p, p < f.nReadPos → f.nReadPos ≤ p + nRewind → ¬(f.pos ≤ p % size ∧ p % size < f.pos + f.readNow)

/-- The invariant of the ring buffer. -/
structure Sound (b : CBufferedFile) : Prop where
  rewind : b.nRewind < b.size
  size_lt : b.size < 2 ^ 32
  length_lt : b.src.contents.length < 2 ^ 63
  pos : b.src.pos = b.nSrcPos
  srcPos : b.nSrcPos ≤ b.src.contents.length
  readPos : b.nReadPos ≤ b.nSrcPos
  back : b.nSrcPos ≤ b.nReadPos + b.size
  held : ∀ p < b.nSrcPos, b.nSrcPos ≤ p + b.size → b.src.contents[p]? = some (b.vchBuf (p % b.size))
  atEnd : b.src.feof = true → b.nSrcPos = b.src.contents.length
  fills : ∀ f ∈ b.fills, FillKeeps b.size b.nRewind f

/-- What reading changes. -/
structure Advances (b b' : CBufferedFile) : Prop where
  contents : b'.src.contents = b.src.contents
  size : b'.size = b.size
  nRewind : b'.nRewind = b.nRewind
  nReadLimit : b'.nReadLimit = b.nReadLimit
  readPos : b.nReadPos ≤ b'.nReadPos
  grows : b.nSrcPos ≤ b'.nSrcPos
  ahead : b'.nSrcPos = b.nSrcPos ∨ b'.nSrcPos ≤ b'.nReadPos + (b.size - b.nRewind)

lemma Advances.refl (b : CBufferedFile) : Advances b b :=
  ⟨rfl, rfl, rfl, rfl, le_rfl, le_rfl, Or.inl rfl⟩

lemma Advances.trans {b b₁ b₂ : CBufferedFile} (h₁ : Advances b b₁) (h₂ : Advances b₁ b₂) : Advances b b₂ where
  contents := h₂.contents.trans h₁.contents
  size := h₂.size.trans h₁.size
  nRewind := h₂.nRewind.trans h₁.nRewind
  nReadLimit := h₂.nReadLimit.trans h₁.nReadLimit
  readPos := h₁.readPos.trans h₂.readPos
  grows := h₁.grows.trans h₂.grows
  ahead := by
    have hread := h₂.readPos
    rcases h₂.ahead with heq | hle
    · rcases h₁.ahead with heq₁ | hle₁
      · exact Or.inl (heq.trans heq₁)
      · exact Or.inr (by omega)
    · rw [h₁.size, h₁.nRewind] at hle
      exact Or.inr hle

section Arithmetic

lemma subUInt64_of_le {a c : ℕ} (h : c ≤ a) (ha : a < 2 ^ 64) : subUInt64 a c = a - c := by
  unfold subUInt64
  omega

lemma mod_add_lt {p i size : ℕ} (h : p % size + i < size) : (p + i) % size = p % size + i := by
  rw [add_mod, mod_eq_of_lt (show i < size by omega), mod_eq_of_lt h]

lemma eq_of_mod_eq {p q size : ℕ} (hmod : p % size = q % size) (hpq : p ≤ q) (hlt : q < p + size) : p = q := by
  have hdist : |(q : ℤ) - p| < size := by
    rw [abs_lt]
    omega
  exact Nat.ModEq.eq_of_abs_lt hmod hdist

lemma storeBytes_of_lt {array : ℕ → UInt8} {pos i : ℕ} {bytes : Bytes} {c : UInt8} (h : bytes[i]? = some c) :
    storeBytes array pos bytes (pos + i) = c := by
  unfold storeBytes
  rw [if_pos (Nat.le_add_right _ _), Nat.add_sub_cancel_left, h]
  rfl

lemma storeBytes_of_not {array : ℕ → UInt8} {pos i : ℕ} {bytes : Bytes}
    (h : ¬(pos ≤ i ∧ i < pos + bytes.length)) : storeBytes array pos bytes i = array i := by
  unfold storeBytes
  split_ifs with hle
  · rw [getElem?_eq_none (by omega)]
    rfl
  · rfl

end Arithmetic

section Specs

variable {b}

lemma sound_make {contents : Bytes} {nBufSize nRewindIn : ℕ} (hlength : contents.length < 2 ^ 63)
    (hrewind : nRewindIn < nBufSize) (hsize : nBufSize < 2 ^ 32) : Sound (make contents nBufSize nRewindIn) where
  rewind := hrewind
  size_lt := hsize
  length_lt := hlength
  pos := rfl
  srcPos := zero_le _
  readPos := le_rfl
  back := zero_le _
  held _ hp := absurd hp (not_lt_zero _)
  atEnd h := nomatch h
  fills _ h := nomatch h

lemma Sound.fillSize_eq (hs : Sound b) (hempty : b.nReadPos = b.nSrcPos) :
    b.nSrcPos % b.size % 2 ^ 32 = b.nSrcPos % b.size ∧
      b.fillSize = min (b.size - b.nSrcPos % b.size) (b.size - b.nRewind) := by
  have hsize := hs.size_lt
  have hrewind := hs.rewind
  have hlength := hs.length_lt
  have hsrc := hs.srcPos
  have hmod : b.nSrcPos % b.size < b.size := mod_lt _ (by omega)
  have hpos : b.nSrcPos % b.size % 2 ^ 32 = b.nSrcPos % b.size := mod_eq_of_lt (by omega)
  refine ⟨hpos, ?_⟩
  unfold fillSize
  rw [hpos, hempty]
  dsimp only
  rw [subUInt64_of_le hmod.le (by omega), subUInt64_of_le (le_refl b.nSrcPos) (by omega), Nat.sub_self]
  rw [subUInt64_of_le (Nat.zero_le _) (by omega), Nat.sub_zero, subUInt64_of_le hrewind.le (by omega)]
  rw [mod_eq_of_lt (show b.size - b.nSrcPos % b.size < 2 ^ 32 by omega)]
  rw [mod_eq_of_lt (show b.size - b.nRewind < 2 ^ 32 by omega)]
  split_ifs with h
  · omega
  · omega

lemma not_written {p n : ℕ} (hp : p < b.nSrcPos) (hfar : b.nSrcPos + n ≤ p + b.size)
    (hn : b.nSrcPos % b.size + n ≤ b.size) :
    ¬(b.nSrcPos % b.size ≤ p % b.size ∧ p % b.size < b.nSrcPos % b.size + n) := by
  rintro ⟨hle, hlt⟩
  obtain ⟨i, hi⟩ := Nat.exists_eq_add_of_le hle
  have hmod : p % b.size = (b.nSrcPos + i) % b.size := by
    rw [mod_add_lt (by omega)]
    exact hi
  have heq := eq_of_mod_eq hmod (by omega) (by omega)
  omega

lemma Sound.fill_spec (hs : Sound b) (hempty : b.nReadPos = b.nSrcPos) :
    (∃ b', b.fill = (.error .endOfFile, b') ∧ Sound b' ∧ Advances b b' ∧ b'.nReadPos = b.nReadPos ∧
      b.nReadPos = b.src.contents.length ∧ b'.nSrcPos = b.nSrcPos ∧ b'.src.feof = true) ∨
    ∃ b', b.fill = (.ok true, b') ∧ Sound b' ∧ Advances b b' ∧ b'.nReadPos = b.nReadPos ∧ b.nReadPos < b'.nSrcPos := by
  obtain ⟨hpos, hfill⟩ := hs.fillSize_eq hempty
  have hsize := hs.size_lt
  have hrewind := hs.rewind
  have hlength := hs.length_lt
  have hsrc := hs.srcPos
  have hmod : b.nSrcPos % b.size < b.size := mod_lt _ (by omega)
  have hasked : ∀ f ∈ (⟨b.nReadPos, b.nSrcPos % b.size, b.fillSize⟩ : FillRequest) :: b.fills, FillKeeps b.size b.nRewind f := by
    rw [forall_mem_cons]
    refine ⟨fun p hp hback => ?_, hs.fills⟩
    dsimp only at hp hback ⊢
    exact not_written (by omega) (by omega) (by omega)
  unfold fill SourceFile.fread
  dsimp only
  rw [hpos, hs.pos, if_neg (by omega)]
  generalize hbytes : (b.src.contents.drop b.nSrcPos).take b.fillSize = bytes
  have hcount : bytes.length = min b.fillSize (b.src.contents.length - b.nSrcPos) := by
    rw [← hbytes, length_take, length_drop]
  have hget : ∀ i < bytes.length, bytes[i]? = b.src.contents[b.nSrcPos + i]? := by
    intro i hi
    rw [← hbytes, getElem?_take_of_lt (by omega), getElem?_drop]
  have hshort : (b.src.feof || decide (bytes.length < b.fillSize)) = true → b.nSrcPos + bytes.length = b.src.contents.length := by
    rw [Bool.or_eq_true, decide_eq_true_eq]
    rintro (hfeof | hlt)
    · have := hs.atEnd hfeof
      omega
    · omega
  by_cases hnone : bytes.length = 0
  · left
    rw [if_pos hnone]
    have hend : (b.src.feof || decide (bytes.length < b.fillSize)) = true := by
      rw [Bool.or_eq_true, decide_eq_true_eq]
      exact Or.inr (by omega)
    have hat := hshort hend
    rw [if_pos hend]
    refine ⟨_, rfl, ⟨hrewind, hsize, hlength, ?_, hsrc, hs.readPos, hs.back, fun p hp hback => ?_, fun _ => ?_, hasked⟩,
      ⟨rfl, rfl, rfl, rfl, le_rfl, le_rfl, Or.inl rfl⟩, rfl, ?_, rfl, hend⟩
    · exact congrArg (b.nSrcPos + ·) hnone
    · dsimp only
      rw [storeBytes_of_not (by omega)]
      exact hs.held p hp hback
    · exact (congrArg (b.nSrcPos + ·) hnone).symm.trans hat
    · omega
  · right
    rw [if_neg hnone]
    have hnew : (b.nSrcPos + bytes.length) % 2 ^ 64 = b.nSrcPos + bytes.length := mod_eq_of_lt (by omega)
    rw [hnew]
    refine ⟨_, rfl, ⟨hrewind, hsize, hlength, rfl, ?_, ?_, ?_, fun p hp hback => ?_, hshort, hasked⟩,
      ⟨rfl, rfl, rfl, rfl, le_rfl, ?_, Or.inr ?_⟩, rfl, ?_⟩
    · show b.nSrcPos + bytes.length ≤ b.src.contents.length
      omega
    · show b.nReadPos ≤ b.nSrcPos + bytes.length
      omega
    · show b.nSrcPos + bytes.length ≤ b.nReadPos + b.size
      omega
    · dsimp only at hp hback ⊢
      by_cases hold : p < b.nSrcPos
      · rw [storeBytes_of_not (not_written hold hback (by omega))]
        exact hs.held p hold (by omega)
      · obtain ⟨i, rfl⟩ := Nat.exists_eq_add_of_le (Nat.le_of_not_lt hold)
        have hi : i < bytes.length := by omega
        rw [mod_add_lt (by omega), ← hget i hi]
        rw [storeBytes_of_lt (getElem?_eq_getElem hi)]
        exact getElem?_eq_getElem hi
    · exact le_add_right _ _
    · show b.nSrcPos + bytes.length ≤ b.nReadPos + (b.size - b.nRewind)
      omega
    · show b.nReadPos < b.nSrcPos + bytes.length
      omega

lemma Sound.fillIfEmpty_spec (hs : Sound b) :
    (∃ b', b.fillIfEmpty = (some .endOfFile, b') ∧ Sound b' ∧ Advances b b' ∧ b'.nReadPos = b.nReadPos ∧
      b.nReadPos = b.src.contents.length ∧ b'.nSrcPos = b.nSrcPos ∧ b'.src.feof = true) ∨
    ∃ b', b.fillIfEmpty = (none, b') ∧ Sound b' ∧ Advances b b' ∧ b'.nReadPos = b.nReadPos ∧ b.nReadPos < b'.nSrcPos := by
  unfold fillIfEmpty
  split_ifs with hempty
  · rcases hs.fill_spec hempty with ⟨b', hfill, h⟩ | ⟨b', hfill, h⟩
    · rw [hfill]
      exact Or.inl ⟨b', rfl, h⟩
    · rw [hfill]
      exact Or.inr ⟨b', rfl, h⟩
  · have hread := hs.readPos
    exact Or.inr ⟨b, rfl, hs, Advances.refl b, rfl, by omega⟩

lemma Sound.moved (hs : Sound b) {q : ℕ} (hq : q ≤ b.nSrcPos) (hback : b.nSrcPos ≤ q + b.size) :
    Sound { b with nReadPos := q } :=
  { hs with readPos := hq, back := hback }

lemma Advances.moved {q : ℕ} (hq : b.nReadPos ≤ q) : Advances b { b with nReadPos := q } :=
  ⟨rfl, rfl, rfl, rfl, hq, le_rfl, Or.inl rfl⟩

lemma Sound.eof_eq (hs : Sound b) (hread : b.nReadPos = b.src.contents.length) (hfeof : b.src.feof = true) : b.eof = true := by
  have hle := hs.readPos
  have hsrc := hs.srcPos
  rw [eof, hfeof, Bool.and_true, decide_eq_true_eq]
  omega

def segment (contents : Bytes) (p q : ℕ) : Bytes := (contents.drop p).take (q - p)

@[simp] lemma segment_self (contents : Bytes) (p : ℕ) : segment contents p p = [] := by
  rw [segment, Nat.sub_self, take_zero]

lemma length_segment {contents : Bytes} {p q : ℕ} (h : q ≤ contents.length) : (segment contents p q).length = q - p := by
  rw [segment, length_take, length_drop]
  omega

lemma segment_append {contents : Bytes} {p q r : ℕ} (hpq : p ≤ q) (hqr : q ≤ r) :
    segment contents p q ++ segment contents q r = segment contents p r := by
  have hr : r - p = (q - p) + (r - q) := by omega
  unfold segment
  rw [hr, take_add, drop_drop, show p + (q - p) = q by omega]

lemma Sound.copied (hs : Sound b) {n : ℕ} (hn : b.nReadPos + n ≤ b.nSrcPos) (hfit : b.nReadPos % b.size + n ≤ b.size) :
    (List.range n).map (fun i => b.vchBuf (b.nReadPos % b.size + i)) = segment b.src.contents b.nReadPos (b.nReadPos + n) := by
  have hsrc := hs.srcPos
  have hback := hs.back
  refine ext_getElem ?_ (fun i hi hi' => ?_)
  · rw [length_segment (hn.trans hsrc), length_map, length_range]
    omega
  · have hin : i < n := by rwa [length_map, length_range] at hi
    have hheld := hs.held (b.nReadPos + i) (by omega) (by omega)
    rw [mod_add_lt (by omega)] at hheld
    rw [getElem_map, getElem_range]
    refine Option.some.inj ?_
    rw [← hheld, ← getElem?_eq_getElem hi', segment, getElem?_take_of_lt (by omega), getElem?_drop]

/-- A read gives the next bytes of the file. -/
structure Delivers (b : CBufferedFile) (nSize : ℕ) (r : ReadResult) : Prop where
  sound : Sound r.file
  advances : Advances b r.file
  pch : r.pch = segment b.src.contents b.nReadPos r.file.nReadPos
  ended : (r.thrown = none ∧ r.file.nReadPos = b.nReadPos + nSize) ∨
    (r.thrown = some .endOfFile ∧ b.src.contents.length < b.nReadPos + nSize ∧
      r.file.nReadPos = b.src.contents.length ∧ r.file.eof = true)

lemma Sound.copySize_eq (hs : Sound b) (hread : b.nReadPos < b.nSrcPos) {nSize : ℕ} (hfit : nSize + 1 ≤ b.size) :
    b.nReadPos % b.size % 2 ^ 32 = b.nReadPos % b.size ∧
      ∃ n, 0 < n ∧ n ≤ nSize + 1 ∧ b.nReadPos % b.size + n ≤ b.size ∧ b.nReadPos + n ≤ b.nSrcPos ∧
        (let nNow := if b.size < (nSize + 1 + b.nReadPos % b.size) % 2 ^ 64 then subUInt64 b.size (b.nReadPos % b.size)
            else nSize + 1
          if b.nSrcPos < (nNow + b.nReadPos) % 2 ^ 64 then subUInt64 b.nSrcPos b.nReadPos else nNow) = n := by
  have hsize := hs.size_lt
  have hsrc := hs.srcPos
  have hlength := hs.length_lt
  have hmod : b.nReadPos % b.size < b.size := mod_lt _ (by omega)
  refine ⟨mod_eq_of_lt (by omega), ?_⟩
  rw [subUInt64_of_le hmod.le (by omega), subUInt64_of_le hread.le (by omega)]
  rw [mod_eq_of_lt (show nSize + 1 + b.nReadPos % b.size < 2 ^ 64 by omega)]
  dsimp only
  generalize hn : (if b.size < nSize + 1 + b.nReadPos % b.size then b.size - b.nReadPos % b.size else nSize + 1) = n
  have hle : 0 < n ∧ n ≤ nSize + 1 ∧ b.nReadPos % b.size + n ≤ b.size := by
    rw [← hn]
    split_ifs with h
    · omega
    · omega
  rw [mod_eq_of_lt (show n + b.nReadPos < 2 ^ 64 by omega)]
  split_ifs with hmore
  · exact ⟨_, by omega, by omega, by omega, by omega, rfl⟩
  · exact ⟨_, by omega, by omega, by omega, by omega, rfl⟩

lemma Sound.readLoop_spec (hs : Sound b) {fuel nSize : ℕ} (hfuel : nSize ≤ fuel) (hfit : nSize ≤ b.size) {pch : Bytes} {p : ℕ}
    (hp : p ≤ b.nReadPos) (hpch : pch = segment b.src.contents p b.nReadPos) :
    let r := readLoop fuel nSize pch b
    Sound r.file ∧ Advances b r.file ∧ r.pch = segment b.src.contents p r.file.nReadPos ∧
      ((r.thrown = none ∧ r.file.nReadPos = b.nReadPos + nSize) ∨
        (r.thrown = some .endOfFile ∧ b.src.contents.length < b.nReadPos + nSize ∧
          r.file.nReadPos = b.src.contents.length ∧ r.file.eof = true)) := by
  induction fuel generalizing nSize pch b with
  | zero =>
    obtain rfl := le_zero.mp hfuel
    exact ⟨hs, Advances.refl b, hpch, Or.inl ⟨rfl, rfl⟩⟩
  | succ fuel ih =>
    cases nSize with
    | zero => exact ⟨hs, Advances.refl b, hpch, Or.inl ⟨rfl, rfl⟩⟩
    | succ nSize =>
      unfold readLoop
      rcases hs.fillIfEmpty_spec with ⟨b₁, hfill, hs₁, hadv, hread, hend, hsrc, hfeof⟩ | ⟨b₁, hfill, hs₁, hadv, hread, hlt⟩
      · rw [hfill]
        dsimp only
        refine ⟨hs₁, hadv, ?_, Or.inr ⟨rfl, by omega, hread.trans hend, ?_⟩⟩
        · rwa [hread]
        · exact hs₁.eof_eq (hread.trans (hend.trans (congrArg List.length hadv.contents.symm))) hfeof
      · rw [hfill]
        dsimp only
        rw [← hread] at hlt
        obtain ⟨hpos, n, hzero, hn, hbuf, hsrc, hnow⟩ := hs₁.copySize_eq hlt (hadv.size ▸ hfit)
        rw [hpos]
        dsimp only at hnow
        rw [hnow, if_neg (by omega)]
        have hlen := hs₁.length_lt
        have hfile := hs₁.srcPos
        have hback := hs₁.back
        rw [mod_eq_of_lt (show b₁.nReadPos + n < 2 ^ 64 by omega), hs₁.copied hsrc hbuf, hadv.contents]
        have hmoved := hs₁.moved (q := b₁.nReadPos + n) hsrc (by omega)
        have hgone : Advances b { b₁ with nReadPos := b₁.nReadPos + n } := hadv.trans (Advances.moved (by omega))
        have hcopy : pch ++ segment b.src.contents b₁.nReadPos (b₁.nReadPos + n) =
            segment b₁.src.contents p (b₁.nReadPos + n) := by
          rw [hpch, ← hread, hadv.contents, segment_append (by omega) (by omega)]
        obtain ⟨hsound, hadvances, hbytes, hended⟩ := ih hmoved (show nSize + 1 - n ≤ fuel by omega)
          (show nSize + 1 - n ≤ b₁.size by rw [hadv.size]; omega) (show p ≤ b₁.nReadPos + n by omega) hcopy
        dsimp only at hsound hadvances hbytes hended
        rw [hadv.contents] at hbytes
        refine ⟨hsound, hgone.trans hadvances, hbytes, ?_⟩
        rw [hadv.contents] at hended
        rcases hended with ⟨hnone, hat⟩ | ⟨hsome, hat⟩
        · exact Or.inl ⟨hnone, by omega⟩
        · exact Or.inr ⟨hsome, by omega, hat.2⟩

lemma Sound.read_spec (hs : Sound b) {nSize : ℕ} (hobject : nSize < 2 ^ 63) :
    (b.read nSize = ⟨[], some .pastLimit, b⟩ ∧ b.nReadLimit < b.nReadPos + nSize) ∨
      (b.read nSize = ⟨[], some .largerThanBuffer, b⟩ ∧ b.size < nSize + b.nRewind) ∨
      (b.nReadPos + nSize ≤ b.nReadLimit ∧ nSize + b.nRewind ≤ b.size ∧ Delivers b nSize (b.read nSize)) := by
  have hsize := hs.size_lt
  have hrewind := hs.rewind
  have hlength := hs.length_lt
  have hsrc := hs.srcPos
  have hread := hs.readPos
  unfold read
  rw [mod_eq_of_lt (show nSize + b.nReadPos < 2 ^ 64 by omega), mod_eq_of_lt (show nSize + b.nRewind < 2 ^ 64 by omega)]
  split_ifs with hlimit hbuffer
  · exact Or.inl ⟨rfl, by omega⟩
  · exact Or.inr (Or.inl ⟨rfl, hbuffer⟩)
  · obtain ⟨hsound, hadv, hpch, hended⟩ :=
      hs.readLoop_spec (le_refl nSize) (by omega) (le_refl b.nReadPos) (segment_self _ _).symm
    exact Or.inr (Or.inr ⟨by omega, by omega, hsound, hadv, hpch, hended⟩)

/-- A search stops at the first such byte, or at the end. -/
structure Finds (b : CBufferedFile) (ch : UInt8) (r : Option BufferFailure × CBufferedFile) : Prop where
  sound : Sound r.2
  advances : Advances b r.2
  passed : ∀ p, b.nReadPos ≤ p → p < r.2.nReadPos → b.src.contents[p]? ≠ some ch
  ended : (r.1 = none ∧ b.src.contents[r.2.nReadPos]? = some ch ∧ r.2.nReadPos < r.2.nSrcPos) ∨
    (r.1 = some .endOfFile ∧ r.2.nReadPos = b.src.contents.length ∧ r.2.eof = true)

lemma Sound.findByteLoop_spec (hs : Sound b) {ch : UInt8} {fuel : ℕ} (hfuel : b.src.contents.length < b.nReadPos + fuel) :
    Finds b ch (b.findByteLoop ch fuel) := by
  induction fuel generalizing b with
  | zero =>
    have hread := hs.readPos
    have hsrc := hs.srcPos
    omega
  | succ fuel ih =>
    unfold findByteLoop
    rcases hs.fillIfEmpty_spec with ⟨b₁, hfill, hs₁, hadv, hread, hend, hsrc, hfeof⟩ | ⟨b₁, hfill, hs₁, hadv, hread, hlt⟩
    · rw [hfill]
      dsimp only
      refine ⟨hs₁, hadv, fun p hp hp' => ?_, Or.inr ⟨rfl, hread.trans hend, ?_⟩⟩
      · dsimp only at hp'
        omega
      · exact hs₁.eof_eq (hread.trans (hend.trans (congrArg List.length hadv.contents.symm))) hfeof
    · rw [hfill]
      dsimp only
      rw [← hread] at hlt
      have hheld := hs₁.held b₁.nReadPos hlt hs₁.back
      rw [hadv.contents] at hheld
      split_ifs with hch
      · rw [hch] at hheld
        refine ⟨hs₁, hadv, fun p hp hp' => ?_, Or.inl ⟨rfl, hheld, hlt⟩⟩
        dsimp only at hp'
        omega
      · have hlen := hs₁.length_lt
        have hfile := hs₁.srcPos
        have hback := hs₁.back
        rw [mod_eq_of_lt (show b₁.nReadPos + 1 < 2 ^ 64 by omega)]
        have hrest := ih (hs₁.moved (q := b₁.nReadPos + 1) hlt (by omega))
          (show b₁.src.contents.length < b₁.nReadPos + 1 + fuel by rw [hadv.contents]; omega)
        refine ⟨hrest.sound, hadv.trans ((Advances.moved (le_succ _)).trans hrest.advances), fun p hp hp' => ?_, ?_⟩
        · rcases eq_or_lt_of_le hp with rfl | hlater
          · rw [← hread, hheld]
            exact fun h => hch (Option.some.inj h)
          · rw [← hadv.contents]
            exact hrest.passed p (show b₁.nReadPos + 1 ≤ p by omega) hp'
        · rw [← hadv.contents]
          exact hrest.ended

lemma Sound.findByte_spec (hs : Sound b) (ch : UInt8) : Finds b ch (b.findByte ch) :=
  hs.findByteLoop_spec (by omega)

/-- The sum in `SetPos` wraps to a position that the file has reached while it has not reached the rewind size. -/
def SetPosWraps (b : CBufferedFile) (nPos : ℕ) : Prop :=
  b.nSrcPos < b.nRewind ∧ 2 ^ 64 ≤ nPos + b.nRewind ∧ nPos + b.nRewind < 2 ^ 64 + b.nSrcPos

lemma Sound.setPos_spec (hs : Sound b) {nPos : ℕ} (hin : nPos < 2 ^ 64) (hwrap : ¬SetPosWraps b nPos) :
    ∃ q, (b.setPos nPos).2 = { b with nReadPos := q } ∧ q ≤ b.nSrcPos ∧ b.nSrcPos ≤ q + b.nRewind ∧
      ((b.setPos nPos).1 = true ↔ q = nPos) := by
  have hsize := hs.size_lt
  have hrewind := hs.rewind
  have hlength := hs.length_lt
  have hsrc := hs.srcPos
  unfold SetPosWraps at hwrap
  unfold setPos
  split_ifs with hfar hbehind
  · refine ⟨b.nSrcPos - b.nRewind, ?_, sub_le _ _, by omega, fun h => (nomatch h), fun h => by omega⟩
    rw [subUInt64_of_le (by omega) (by omega)]
  · exact ⟨b.nSrcPos, rfl, le_rfl, le_add_right _ _, fun h => (nomatch h), fun h => by omega⟩
  · exact ⟨nPos, rfl, by omega, by omega, fun _ => rfl, fun _ => rfl⟩

lemma setPos_of_le {nPos : ℕ} (hsum : nPos + b.nRewind < 2 ^ 64) (hsrc : b.nSrcPos < 2 ^ 64) (hle : nPos ≤ b.nSrcPos) :
    (b.setPos nPos).2 = { b with nReadPos := max nPos (b.nSrcPos - b.nRewind) } := by
  unfold setPos
  rw [mod_eq_of_lt hsum]
  split_ifs with hfar
  · rw [subUInt64_of_le (by omega) hsrc, max_eq_right (by omega)]
  · omega
  · rw [max_eq_left (by omega)]

end Specs

/-- The calls on a buffered file. -/
inductive Call where
  | read (nSize : Fin (2 ^ 63))
  | setPos (nPos : UInt64)
  | setLimit (nPos : UInt64)
  | findByte (ch : UInt8)

/-- What a call returns. -/
inductive Answer where
  | delivered (pch : Bytes) (thrown : Option BufferFailure)
  | moved (ok : Bool)
  | limited (ok : Bool)
  | found (thrown : Option BufferFailure)
deriving DecidableEq

def call (b : CBufferedFile) : Call → Answer × CBufferedFile
  | .read nSize => let r := b.read nSize; (.delivered r.pch r.thrown, r.file)
  | .setPos nPos => let r := b.setPos nPos.toNat; (.moved r.1, r.2)
  | .setLimit nPos => let r := b.setLimit nPos.toNat; (.limited r.1, r.2)
  | .findByte ch => let r := b.findByte ch; (.found r.1, r.2)

/-- A call that does not make the sum in `SetPos` wrap. -/
def Call.Safe (b : CBufferedFile) : Call → Prop
  | .setPos nPos => ¬SetPosWraps b nPos.toNat
  | _ => True

/-- The states after calls in which no sum wraps. -/
inductive Reached (start : CBufferedFile) : CBufferedFile → Prop
  | start : Reached start start
  | call {b : CBufferedFile} (h : Reached start b) {c : Call} (hsafe : c.Safe b) : Reached start (b.call c).2

/-- What a call has to answer to read the file itself. -/
def Transparent (b : CBufferedFile) : Call → Answer × CBufferedFile → Prop
  | .read nSize, (.delivered pch thrown, b') =>
    b.nReadPos ≤ b'.nReadPos ∧ pch = segment b.src.contents b.nReadPos b'.nReadPos ∧
      ((thrown = none ∧ b'.nReadPos = b.nReadPos + nSize) ∨
        (thrown = some .endOfFile ∧ b'.nReadPos = b.src.contents.length ∧ b.src.contents.length < b.nReadPos + nSize) ∨
        (thrown = some .pastLimit ∧ b' = b ∧ b.nReadLimit < b.nReadPos + nSize) ∨
        (thrown = some .largerThanBuffer ∧ b' = b ∧ b.size < nSize + b.nRewind))
  | .setPos nPos, (.moved ok, b') => (ok = true ↔ b'.nReadPos = nPos.toNat)
  | .setLimit _, (.limited _, b') => b'.nReadPos = b.nReadPos
  | .findByte ch, (.found thrown, b') =>
    b.nReadPos ≤ b'.nReadPos ∧ (∀ p, b.nReadPos ≤ p → p < b'.nReadPos → b.src.contents[p]? ≠ some ch) ∧
      ((thrown = none ∧ b.src.contents[b'.nReadPos]? = some ch) ∨
        (thrown = some .endOfFile ∧ b'.nReadPos = b.src.contents.length))
  | _, _ => False

section Runs

variable {b start : CBufferedFile}

/-- The same file behind a buffer of the same size. -/
structure SameFile (b b' : CBufferedFile) : Prop where
  contents : b'.src.contents = b.src.contents
  size : b'.size = b.size
  nRewind : b'.nRewind = b.nRewind

lemma Advances.sameFile {b' : CBufferedFile} (h : Advances b b') : SameFile b b' := ⟨h.contents, h.size, h.nRewind⟩

lemma SameFile.trans {b₁ b₂ : CBufferedFile} (h₁ : SameFile b b₁) (h₂ : SameFile b₁ b₂) : SameFile b b₂ :=
  ⟨h₂.contents.trans h₁.contents, h₂.size.trans h₁.size, h₂.nRewind.trans h₁.nRewind⟩

lemma Sound.call_spec (hs : Sound b) {c : Call} (hsafe : c.Safe b) :
    Sound (b.call c).2 ∧ SameFile b (b.call c).2 ∧ Transparent b c (b.call c) := by
  cases c with
  | read nSize =>
    show Sound (b.read nSize).file ∧ SameFile b (b.read nSize).file ∧ Transparent b (.read nSize) (_, (b.read nSize).file)
    rcases hs.read_spec nSize.isLt with ⟨hread, hlimit⟩ | ⟨hread, hbuffer⟩ | ⟨-, -, hdelivers⟩
    · rw [hread]
      exact ⟨hs, ⟨rfl, rfl, rfl⟩, le_rfl, (segment_self _ _).symm, Or.inr (Or.inr (Or.inl ⟨rfl, rfl, hlimit⟩))⟩
    · rw [hread]
      exact ⟨hs, ⟨rfl, rfl, rfl⟩, le_rfl, (segment_self _ _).symm, Or.inr (Or.inr (Or.inr ⟨rfl, rfl, hbuffer⟩))⟩
    · refine ⟨hdelivers.sound, hdelivers.advances.sameFile, hdelivers.advances.readPos, hdelivers.pch, ?_⟩
      rcases hdelivers.ended with hall | ⟨hthrown, hshort, hend, -⟩
      · exact Or.inl hall
      · exact Or.inr (Or.inl ⟨hthrown, hend, hshort⟩)
  | setPos nPos =>
    obtain ⟨q, hmoved, hle, hback, hiff⟩ := hs.setPos_spec nPos.toNat_lt hsafe
    have hrewind := hs.rewind
    show Sound (b.setPos nPos.toNat).2 ∧ SameFile b (b.setPos nPos.toNat).2 ∧
      ((b.setPos nPos.toNat).1 = true ↔ (b.setPos nPos.toNat).2.nReadPos = nPos.toNat)
    rw [hmoved]
    exact ⟨hs.moved hle (by omega), ⟨rfl, rfl, rfl⟩, hiff⟩
  | setLimit nPos =>
    show Sound (b.setLimit nPos.toNat).2 ∧ SameFile b (b.setLimit nPos.toNat).2 ∧ (b.setLimit nPos.toNat).2.nReadPos = b.nReadPos
    unfold setLimit
    split_ifs with hbehind
    · exact ⟨hs, ⟨rfl, rfl, rfl⟩, rfl⟩
    · exact ⟨{ hs with }, ⟨rfl, rfl, rfl⟩, rfl⟩
  | findByte ch =>
    have hfinds := hs.findByte_spec ch
    refine ⟨hfinds.sound, hfinds.advances.sameFile, hfinds.advances.readPos, hfinds.passed, ?_⟩
    rcases hfinds.ended with ⟨hnone, hfound, -⟩ | ⟨hsome, hend, -⟩
    · exact Or.inl ⟨hnone, hfound⟩
    · exact Or.inr ⟨hsome, hend⟩

lemma Reached.sound (hreached : Reached start b) (hstart : Sound start) : Sound b ∧ SameFile start b := by
  induction hreached with
  | start => exact ⟨hstart, rfl, rfl, rfl⟩
  | call _ hsafe ih =>
    obtain ⟨hsound, hsame, -⟩ := ih.1.call_spec hsafe
    exact ⟨hsound, ih.2.trans hsame⟩

lemma Sound.not_transparent_of_wraps (hs : Sound b) {nPos : UInt64} (hwrap : SetPosWraps b nPos.toNat) :
    let b' := ((b.call (.setPos nPos)).2.call (.setLimit (-1))).2
    ¬Transparent b' (.read 1) (b'.call (.read 1)) := by
  have hsize := hs.size_lt
  have hrewind := hs.rewind
  obtain ⟨hbehind, hlow, hhigh⟩ := hwrap
  have hsub : subUInt64 b.nSrcPos b.nRewind = 2 ^ 64 + b.nSrcPos - b.nRewind := by
    unfold subUInt64
    omega
  have hset : (b.call (.setPos nPos)).2 = { b with nReadPos := 2 ^ 64 + b.nSrcPos - b.nRewind } := by
    show (b.setPos nPos.toNat).2 = _
    unfold setPos
    rw [if_pos (show (nPos.toNat + b.nRewind) % 2 ^ 64 < b.nSrcPos by omega), hsub]
  have hlimit : ((b.call (.setPos nPos)).2.call (.setLimit (-1))).2 =
      { b with nReadPos := 2 ^ 64 + b.nSrcPos - b.nRewind, nReadLimit := 2 ^ 64 - 1 } := by
    rw [hset]
    show (setLimit _ (2 ^ 64 - 1)).2 = _
    unfold setLimit
    rw [if_neg (show ¬2 ^ 64 - 1 < 2 ^ 64 + b.nSrcPos - b.nRewind by omega)]
  rw [hlimit]
  dsimp only
  generalize hb' : ({ b with nReadPos := 2 ^ 64 + b.nSrcPos - b.nRewind, nReadLimit := 2 ^ 64 - 1 } : CBufferedFile) = b'
  have hread : b'.nReadPos = 2 ^ 64 + b.nSrcPos - b.nRewind := hb' ▸ rfl
  have hsrc : b'.nSrcPos = b.nSrcPos := hb' ▸ rfl
  have hsize' : b'.size = b.size := hb' ▸ rfl
  have hrun : b'.read 1 = readLoop 1 1 [] b' := by
    have hlimit' : b'.nReadLimit = 2 ^ 64 - 1 := hb' ▸ rfl
    have hrewind' : b'.nRewind = b.nRewind := hb' ▸ rfl
    unfold read
    rw [if_neg (by omega), if_neg (by omega)]
  have hfill : b'.fillIfEmpty = (none, b') := if_neg (by omega)
  have hmod : b'.nReadPos % b'.size < b'.size := mod_lt _ (by omega)
  show ¬Transparent b' (.read 1) (.delivered (b'.read 1).pch (b'.read 1).thrown, (b'.read 1).file)
  rw [hrun]
  unfold readLoop
  rw [hfill]
  dsimp only
  rw [mod_eq_of_lt (show b'.nReadPos % b'.size < 2 ^ 32 by omega)]
  rw [if_neg (show ¬b'.size < (0 + 1 + b'.nReadPos % b'.size) % 2 ^ 64 by omega)]
  rw [show subUInt64 b'.nSrcPos b'.nReadPos = b.nRewind by unfold subUInt64; omega]
  by_cases hlast : b.nRewind = b.nSrcPos + 1
  · -- the position itself wraps to zero
    rw [if_neg (show ¬b'.nSrcPos < (0 + 1 + b'.nReadPos) % 2 ^ 64 by omega)]
    rw [if_neg (show ¬(0 + 1 < 0 + 1 ∨ b'.size < b'.nReadPos % b'.size + (0 + 1)) by omega)]
    rintro ⟨hle, -⟩
    have hzero : (b'.nReadPos + (0 + 1)) % 2 ^ 64 = 0 := by omega
    have hback : b'.nReadPos ≤ (b'.nReadPos + (0 + 1)) % 2 ^ 64 := hle
    omega
  · rw [if_pos (show b'.nSrcPos < (0 + 1 + b'.nReadPos) % 2 ^ 64 by omega)]
    rw [if_pos (show 0 + 1 < b.nRewind ∨ b'.size < b'.nReadPos % b'.size + b.nRewind by omega)]
    rintro ⟨-, -, ⟨h, -⟩ | ⟨h, -⟩ | ⟨h, -⟩ | ⟨h, -⟩⟩
    all_goals cases h

end Runs

end CBufferedFile

end MutableBitcoin
