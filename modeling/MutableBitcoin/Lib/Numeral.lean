import Mathlib.Data.Nat.Bitwise
import Mathlib.Data.Nat.Digits.Lemmas

/-!
# Positional numerals as bytes and as text

Little-endian byte strings, hexadecimal text read from the most significant digit, and
runs of hexadecimal digits packed back into bytes two at a time. Every reader is stated by
the number it denotes.
-/

namespace MutableBitcoin.Lib
open List Nat Option

def leValue (bs : List UInt8) : ℕ :=
  Nat.ofDigits 256 (bs.map UInt8.toNat)

/-- The `width` low bytes of a number, least significant first. -/
def leBytes : ℕ → ℕ → List UInt8
  | 0, _ => []
  | width + 1, n => UInt8.ofNat n :: leBytes width (n / 256)

@[simp] lemma leValue_nil : leValue [] = 0 := rfl

lemma leValue_eq (bs : List UInt8) : leValue bs = Nat.ofDigits 256 (bs.map UInt8.toNat) := rfl

@[simp] lemma leValue_cons (b : UInt8) (bs : List UInt8) :
    leValue (b :: bs) = b.toNat + 256 * leValue bs := by
  simp [leValue_eq, ofDigits_cons]

lemma leValue_append (bs cs : List UInt8) :
    leValue (bs ++ cs) = leValue bs + 256 ^ bs.length * leValue cs := by
  simp [leValue_eq, ofDigits_append]

lemma leValue_replicate_zero (n : ℕ) : leValue (List.replicate n 0) = 0 := by
  simp [leValue_eq, ofDigits_replicate_zero]

lemma leValue_lt (bs : List UInt8) : leValue bs < 256 ^ bs.length := by
  have h := ofDigits_lt_base_pow_length (b := 256) (l := bs.map UInt8.toNat)
    (by norm_num) (by
      intro d hd
      obtain ⟨b, -, rfl⟩ := mem_map.mp hd
      exact b.toNat_lt)
  simpa [leValue_eq] using h

@[simp] lemma length_leBytes (width n : ℕ) : (leBytes width n).length = width := by
  induction width generalizing n with
  | zero => rfl
  | succ width ih => simp [leBytes, ih]

lemma leValue_leBytes {width n : ℕ} (h : n < 256 ^ width) : leValue (leBytes width n) = n := by
  induction width generalizing n with
  | zero => simp [leBytes, show n = 0 by simpa using h]
  | succ width ih =>
    rw [leBytes, leValue_cons, ih (Nat.div_lt_of_lt_mul (by rw [pow_succ] at h; omega)),
      UInt8.toNat_ofNat']
    omega

lemma leValue_injOn {bs cs : List UInt8} (hl : bs.length = cs.length)
    (hv : leValue bs = leValue cs) : bs = cs := by
  induction bs generalizing cs with
  | nil => simpa using hl.symm
  | cons b bs ih =>
    cases cs with
    | nil => simp at hl
    | cons c cs =>
      rw [leValue_cons, leValue_cons] at hv
      have hb := b.toNat_lt
      have hc := c.toNat_lt
      have hbc : b = c := UInt8.toNat_inj.mp (by omega)
      have htl : leValue bs = leValue cs := by
        rw [hbc] at hv
        omega
      rw [hbc, ih (by simpa using hl) htl]

lemma and_sign_ne_zero_iff (b : UInt8) : b &&& 0x80 ≠ 0 ↔ 128 ≤ b.toNat := by
  have hb := b.toNat_lt
  have hbit : (b &&& 0x80).toNat = 128 * (b.toNat / 128 % 2) := by
    rw [UInt8.toNat_and]
    exact (and_two_pow b.toNat 7).trans (by rw [toNat_testBit, mul_comm]; rfl)
  rw [Ne, ← UInt8.toNat_inj, hbit, UInt8.toNat_zero]
  omega

lemma and_magnitude_ne_zero_iff (b : UInt8) : b &&& 0x7f ≠ 0 ↔ b.toNat % 128 ≠ 0 := by
  have hbits : (b &&& 0x7f).toNat = b.toNat % 128 := by
    rw [UInt8.toNat_and]
    exact and_two_pow_sub_one_eq_mod b.toNat 7
  rw [Ne, ← UInt8.toNat_inj, hbits, UInt8.toNat_zero]

lemma toNat_or_sign {b : UInt8} (hb : b.toNat < 128) : (b ||| 0x80).toNat = b.toNat + 128 := by
  rw [UInt8.toNat_or, Nat.or_comm, Nat.add_comm]
  exact (two_pow_add_eq_or_of_lt (i := 7) hb 1).symm

def hexDigit (c : Char) : Option ℕ :=
  if 48 ≤ c.toNat ∧ c.toNat ≤ 57 then some (c.toNat - 48)
  else if 65 ≤ c.toNat ∧ c.toNat ≤ 70 then some (c.toNat - 55)
  else if 97 ≤ c.toNat ∧ c.toNat ≤ 102 then some (c.toNat - 87)
  else none

lemma hexDigit_digitChar {d : ℕ} (hd : d < 16) : hexDigit d.digitChar = some d := by
  interval_cases d <;> decide

lemma hexDigit_lt {c : Char} {d : ℕ} (h : hexDigit c = some d) : d < 16 := by
  unfold hexDigit at h
  split_ifs at h <;> simp only [Option.some.injEq] at h <;> omega

def hexValue (s : List Char) : ℕ :=
  s.foldl (fun v c => match hexDigit c with
    | some d => 16 * v + d
    | none => v) 0

@[simp] lemma hexValue_nil : hexValue [] = 0 := rfl

lemma hexValue_append_digit (s : List Char) {c : Char} {d : ℕ} (h : hexDigit c = some d) :
    hexValue (s ++ [c]) = 16 * hexValue s + d := by
  simp [hexValue, h]

def hexStr (bs : List UInt8) : List Char :=
  bs.flatMap (fun b => [(b.toNat / 16).digitChar, (b.toNat % 16).digitChar])

@[simp] lemma hexStr_nil : hexStr [] = [] := rfl

lemma hexStr_append (bs cs : List UInt8) : hexStr (bs ++ cs) = hexStr bs ++ hexStr cs := by
  simp [hexStr]

@[simp] lemma length_hexStr (bs : List UInt8) : (hexStr bs).length = 2 * bs.length := by
  induction bs with
  | nil => rfl
  | cons b bs ih => simp [hexStr] at ih ⊢; omega

lemma hexValue_hexStr (bs : List UInt8) : hexValue (hexStr bs.reverse) = leValue bs := by
  induction bs with
  | nil => rfl
  | cons b bs ih =>
    have hb := b.toNat_lt
    have hhi := hexDigit_digitChar (show b.toNat / 16 < 16 by omega)
    have hlo := hexDigit_digitChar (show b.toNat % 16 < 16 by omega)
    rw [reverse_cons, hexStr_append,
      show hexStr [b] = [(b.toNat / 16).digitChar] ++ [(b.toNat % 16).digitChar] from rfl,
      ← append_assoc, hexValue_append_digit _ hlo, hexValue_append_digit _ hhi, ih,
      leValue_cons]
    omega

lemma hexValue_toDigits (n : ℕ) : hexValue (Nat.toDigits 16 n) = n := by
  induction n using Nat.strong_induction_on with
  | _ n ih =>
    rw [toDigits_eq_if (by norm_num)]
    split_ifs with hn
    · simpa using hexValue_append_digit [] (hexDigit_digitChar hn)
    · rw [hexValue_append_digit _ (hexDigit_digitChar (mod_lt n (by norm_num))),
        ih (n / 16) (by omega)]
      omega

def hexRun : List Char → List ℕ
  | [] => []
  | c :: cs => match hexDigit c with
    | some d => d :: hexRun cs
    | none => []

lemma hexRun_nil : hexRun [] = [] := rfl

lemma hexRun_cons (c : Char) (cs : List Char) :
    hexRun (c :: cs) = (hexDigit c).elim [] (fun d => d :: hexRun cs) := by
  cases h : hexDigit c with
  | none => rw [hexRun, h, elim_none]
  | some d => rw [hexRun, h, elim_some]

lemma hexRun_append {s : List Char} (hs : ∀ c ∈ s, (hexDigit c).isSome) (t : List Char) :
    hexRun (s ++ t) = hexRun s ++ hexRun t := by
  induction s with
  | nil => rfl
  | cons c s ih =>
    obtain ⟨d, hd⟩ := isSome_iff_exists.mp (hs c (by simp))
    rw [cons_append, hexRun_cons, hexRun_cons, hd, elim_some, elim_some,
      ih (fun x hx => hs x (by simp [hx]))]
    rfl

lemma length_hexRun_le (s : List Char) : (hexRun s).length ≤ s.length := by
  induction s with
  | nil => exact le_rfl
  | cons c s ih =>
    rw [hexRun_cons]
    cases hexDigit c <;> simp [ih]

lemma hexRun_lt {s : List Char} {d : ℕ} (hd : d ∈ hexRun s) : d < 16 := by
  induction s with
  | nil => cases hd
  | cons c s ih =>
    rw [hexRun_cons] at hd
    cases he : hexDigit c with
    | none => simp [he] at hd
    | some e =>
      rw [he, elim_some, mem_cons] at hd
      rcases hd with rfl | hd
      · exact hexDigit_lt he
      · exact ih hd

lemma ofDigits_hexRun {s : List Char} (hs : ∀ c ∈ s, (hexDigit c).isSome) :
    Nat.ofDigits 16 (hexRun s).reverse = hexValue s := by
  induction s using List.reverseRecOn with
  | nil => rfl
  | append_singleton s c ih =>
    obtain ⟨d, hd⟩ := isSome_iff_exists.mp (hs c (by simp))
    have hs' : ∀ x ∈ s, (hexDigit x).isSome := fun x hx => hs x (by simp [hx])
    rw [hexRun_append hs', hexValue_append_digit s hd, ← ih hs']
    rw [hexRun_cons, hd]
    simp [hexRun_nil, ofDigits_cons]
    ring

lemma isSome_hexDigit_of_mem_hexStr {bs : List UInt8} {c : Char} (hc : c ∈ hexStr bs) :
    (hexDigit c).isSome := by
  obtain ⟨b, -, hc⟩ := mem_flatMap.mp hc
  have hb := b.toNat_lt
  rcases mem_cons.mp hc with rfl | hc
  · rw [hexDigit_digitChar (by omega)]
    rfl
  · rw [mem_singleton.mp hc, hexDigit_digitChar (by omega)]
    rfl

lemma isSome_hexDigit_of_mem_toDigits {n : ℕ} {c : Char} (hc : c ∈ Nat.toDigits 16 n) :
    (hexDigit c).isSome := by
  induction n using Nat.strong_induction_on with
  | _ n ih =>
    rw [toDigits_eq_if (by norm_num)] at hc
    split_ifs at hc with hn
    · rw [mem_singleton.mp hc, hexDigit_digitChar hn]
      rfl
    · rcases mem_append.mp hc with hc | hc
      · exact ih (n / 16) (by omega) hc
      · rw [mem_singleton.mp hc, hexDigit_digitChar (mod_lt n (by norm_num))]
        rfl

def packNibbles : List ℕ → List UInt8
  | [] => []
  | [lo] => [UInt8.ofNat lo]
  | lo :: hi :: ds => UInt8.ofNat (lo + 16 * hi) :: packNibbles ds

lemma length_packNibbles (ds : List ℕ) : (packNibbles ds).length = (ds.length + 1) / 2 := by
  induction ds using packNibbles.induct with
  | case1 => rfl
  | case2 lo => simp [packNibbles]
  | case3 lo hi ds ih =>
    simp only [packNibbles, length_cons, ih]
    omega

lemma leValue_packNibbles {ds : List ℕ} (hds : ∀ d ∈ ds, d < 16) :
    leValue (packNibbles ds) = Nat.ofDigits 16 ds := by
  induction ds using packNibbles.induct with
  | case1 => rfl
  | case2 lo =>
    have hlo := hds lo (by simp)
    simp only [packNibbles, leValue_cons, leValue_nil, UInt8.toNat_ofNat', ofDigits_singleton]
    omega
  | case3 lo hi ds ih =>
    have hlo := hds lo (by simp)
    have hhi := hds hi (by simp)
    have htl := ih (fun d hd => hds d (by simp [hd]))
    simp only [packNibbles, leValue_cons, htl, UInt8.toNat_ofNat', ofDigits_cons]
    omega

def fit (width : ℕ) (bs : List UInt8) : List UInt8 :=
  (bs ++ List.replicate width 0).take width

@[simp] lemma length_fit (width : ℕ) (bs : List UInt8) : (fit width bs).length = width := by
  simp [fit]

lemma leValue_fit {width : ℕ} {bs : List UInt8} (h : bs.length ≤ width) :
    leValue (fit width bs) = leValue bs := by
  have hfit : fit width bs = bs ++ List.replicate (width - bs.length) 0 := by
    rw [fit, take_append, take_of_length_le h, take_replicate]
    congr 2
    omega
  rw [hfit, leValue_append, leValue_replicate_zero, mul_zero, add_zero]

lemma leValue_fit_packNibbles {width : ℕ} {s : List Char}
    (hs : ∀ c ∈ s, (hexDigit c).isSome) (hl : s.length ≤ 2 * width) :
    leValue (fit width (packNibbles (hexRun s).reverse)) = hexValue s := by
  have hlen : (packNibbles (hexRun s).reverse).length ≤ width := by
    have := length_hexRun_le s
    rw [length_packNibbles, length_reverse]
    omega
  rw [leValue_fit hlen, leValue_packNibbles (by
    intro d hd
    exact hexRun_lt (mem_reverse.mp hd)), ofDigits_hexRun hs]

end MutableBitcoin.Lib
