import MutableBitcoin.Lib.Numeral

/-!
# Opaque blobs

`base_blob<BITS>` of `uint256.h` with its text conversions. A blob is stored least
significant byte first and printed most significant byte first, so `getHex` reverses the
bytes and `setHex` fills them from the last digit of the text.
-/

namespace MutableBitcoin
open Lib List

abbrev Bytes := List UInt8

/-- The characters of a `std::string`. -/
abbrev Str := List Char

instance instLawfulBEqStr : LawfulBEq Str := inferInstance

/-- `base_blob<BITS>` with `width = BITS / 8` bytes of data. -/
structure BaseBlob (width : ℕ) where
  data : Bytes
  length_data : data.length = width
deriving DecidableEq

abbrev Uint256 := BaseBlob 32
abbrev Uint1024 := BaseBlob 128

instance : LawfulBEq Uint256 := inferInstance

/-- `isspace` of the C locale. -/
def isspace (c : Char) : Bool :=
  c == ' ' || (9 ≤ c.toNat && c.toNat ≤ 13)

/-- `if (psz[0] == '0' && tolower(psz[1]) == 'x') psz += 2`. -/
def skipHexPrefix : Str → Str
  | c₀ :: c₁ :: psz => if c₀ = '0' ∧ (c₁ = 'x' ∨ c₁ = 'X') then psz else c₀ :: c₁ :: psz
  | psz => psz

namespace BaseBlob

variable {width : ℕ}

@[ext] lemma ext {a b : BaseBlob width} (h : a.data = b.data) : a = b := by
  cases a
  cases b
  simpa using h

def null (width : ℕ) : BaseBlob width :=
  ⟨List.replicate width 0, by simp⟩

/-- The blob of a number, as `ArithToUint256` makes it. -/
def ofNat (width n : ℕ) : BaseBlob width := ⟨leBytes width n, length_leBytes width n⟩

instance : Inhabited (BaseBlob width) := ⟨null width⟩

def isNull (b : BaseBlob width) : Bool :=
  b.data.all (· == 0)

def getHex (b : BaseBlob width) : Str :=
  hexStr b.data.reverse

/-- The end of the text stands for the terminating `NUL`, which is neither a space nor a
digit. -/
def setHex (width : ℕ) (psz : Str) : BaseBlob width :=
  let digits := hexRun (skipHexPrefix (psz.dropWhile isspace))
  ⟨fit width (packNibbles digits.reverse), length_fit _ _⟩

def value (b : BaseBlob width) : ℕ :=
  leValue b.data

lemma value_lt (b : BaseBlob width) : b.value < 256 ^ width := by
  simpa [value, b.length_data] using leValue_lt b.data

lemma value_injective : Function.Injective (value : BaseBlob width → ℕ) := by
  intro a b h
  exact ext (leValue_injOn (by rw [a.length_data, b.length_data]) h)

@[simp] lemma value_null : (null width).value = 0 := leValue_replicate_zero width

lemma hexValue_getHex (b : BaseBlob width) : hexValue b.getHex = b.value :=
  hexValue_hexStr b.data

lemma isspace_eq_false_of_hexDigit {c : Char} (h : (hexDigit c).isSome) : isspace c = false := by
  by_contra hne
  have hsp : c.toNat = 32 ∨ (9 ≤ c.toNat ∧ c.toNat ≤ 13) := by
    simp only [isspace, Bool.not_eq_false, Bool.or_eq_true, beq_iff_eq, Bool.and_eq_true,
      decide_eq_true_eq] at hne
    rcases hne with rfl | hne
    · exact Or.inl rfl
    · exact Or.inr hne
  unfold hexDigit at h
  split_ifs at h <;> first | omega | simp at h

lemma hexDigit_x : hexDigit 'x' = none := by decide

lemma hexDigit_X : hexDigit 'X' = none := by decide

lemma skipHexPrefix_append {s t : Str} (hs : ∀ c ∈ s, (hexDigit c).isSome) (hne : s ≠ [])
    (ht : t.head? ≠ some 'x' ∧ t.head? ≠ some 'X') :
    skipHexPrefix ((s ++ t).dropWhile isspace) = s ++ t := by
  obtain ⟨c, s, rfl⟩ := exists_cons_of_ne_nil hne
  have hc := isspace_eq_false_of_hexDigit (hs c (by simp))
  simp only [cons_append, dropWhile_cons, hc, Bool.false_eq_true, if_false]
  cases hst : s ++ t with
  | nil => rfl
  | cons c₁ rest =>
    have hx : ¬(c₁ = 'x' ∨ c₁ = 'X') := by
      cases s with
      | nil =>
        rw [nil_append] at hst
        rw [hst] at ht
        simpa using ht
      | cons d s =>
        obtain ⟨rfl, -⟩ := List.cons.inj hst
        have hd := hs d (by simp)
        rintro (rfl | rfl)
        · rw [hexDigit_x] at hd
          simp at hd
        · rw [hexDigit_X] at hd
          simp at hd
    simp [skipHexPrefix, hx]

lemma value_setHex {s t : Str} (hs : ∀ c ∈ s, (hexDigit c).isSome) (hne : s ≠ [])
    (ht : t.head? ≠ some 'x' ∧ t.head? ≠ some 'X') (hrun : hexRun t = [])
    (hl : s.length ≤ 2 * width) :
    (setHex width (s ++ t)).value = hexValue s := by
  simp only [setHex, value]
  rw [skipHexPrefix_append hs hne ht, hexRun_append hs, hrun, append_nil]
  exact leValue_fit_packNibbles hs hl

theorem setHex_getHex (b : BaseBlob width) : setHex width b.getHex = b := by
  apply value_injective
  by_cases hw : b.getHex = []
  · have h0 : width = 0 := by
      have := congrArg List.length hw
      simpa [getHex, b.length_data] using this
    subst h0
    have hb := value_lt b
    have hs := value_lt (setHex 0 b.getHex)
    omega
  · have h : (setHex width (b.getHex ++ [])).value = hexValue b.getHex :=
      value_setHex (fun c hc => isSome_hexDigit_of_mem_hexStr hc) hw (by simp) rfl
        (by simp [getHex, b.length_data])
    rw [append_nil] at h
    rw [h, hexValue_getHex]

lemma getHex_injective : Function.Injective (getHex : BaseBlob width → Str) := by
  intro a b h
  rw [← setHex_getHex a, h, setHex_getHex]

end BaseBlob

def uint256S (str : Str) : Uint256 := BaseBlob.setHex 32 str

def uint1024S (str : Str) : Uint1024 := BaseBlob.setHex 128 str

end MutableBitcoin
