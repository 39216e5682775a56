import MutableBitcoin.Lib.Numeral

/-!
# DER encodings of sequences of integers

Big-endian numbers, and the distinguished encoding of integers that are not negative: lengths and contents
take as few bytes as they can.
-/

namespace MutableBitcoin.Lib
open List

section BigEndian

def beValue (bs : List UInt8) : ℕ := leValue bs.reverse

def beDigits (n : ℕ) : List UInt8 := ((Nat.digits 256 n).map UInt8.ofNat).reverse

@[simp] lemma beValue_nil : beValue [] = 0 := rfl

lemma beValue_cons (b : UInt8) (bs : List UInt8) : beValue (b :: bs) = b.toNat * 256 ^ bs.length + beValue bs := by
  rw [beValue, beValue, reverse_cons, leValue_append, leValue_cons, leValue_nil, length_reverse]
  ring

lemma beValue_lt (bs : List UInt8) : beValue bs < 256 ^ bs.length := by
  have h := leValue_lt bs.reverse
  rwa [length_reverse] at h

lemma map_toNat_digits (n : ℕ) : ((Nat.digits 256 n).map UInt8.ofNat).map UInt8.toNat = Nat.digits 256 n := by
  rw [map_map]
  conv_rhs => rw [← map_id (Nat.digits 256 n)]
  apply map_congr_left
  intro d hd
  have hlt := Nat.digits_lt_base (b := 256) (by norm_num) hd
  simp only [Function.comp_apply, UInt8.toNat_ofNat', id_eq]
  omega

lemma beValue_beDigits (n : ℕ) : beValue (beDigits n) = n := by
  rw [beValue, beDigits, reverse_reverse, leValue, map_toNat_digits, Nat.ofDigits_digits]

lemma beDigits_beValue {b : UInt8} (hb : b ≠ 0) (bs : List UInt8) : beDigits (beValue (b :: bs)) = b :: bs := by
  have hdigits : Nat.digits 256 (leValue (b :: bs).reverse) = (b :: bs).reverse.map UInt8.toNat := by
    apply Nat.digits_ofDigits 256 (by norm_num)
    · intro d hd
      obtain ⟨c, -, rfl⟩ := mem_map.mp hd
      exact c.toNat_lt
    · intro hne
      simpa [UInt8.ext_iff] using hb
  rw [beDigits, beValue, hdigits, map_map, map_reverse, reverse_reverse,
    show UInt8.ofNat ∘ UInt8.toNat = id from funext fun _ => UInt8.ofNat_toNat, map_id]

lemma length_beDigits_le_iff {n k : ℕ} : (beDigits n).length ≤ k ↔ n < 256 ^ k := by
  rw [beDigits, length_reverse, length_map]
  exact Nat.digits_length_le_iff (by norm_num) n

lemma beDigits_head {n : ℕ} {b : UInt8} {bs : List UInt8} (h : beDigits n = b :: bs) : b ≠ 0 := by
  rintro rfl
  have hvalue := beValue_beDigits n
  rw [h, beValue_cons, UInt8.toNat_zero, zero_mul, zero_add] at hvalue
  have hlength := length_beDigits_le_iff.mpr (hvalue ▸ beValue_lt bs)
  rw [h, length_cons] at hlength
  omega

end BigEndian

section Der

def derContent (n : ℕ) : List UInt8 :=
  match beDigits n with
  | [] => [0]
  | b :: bs => if 128 ≤ b.toNat then 0 :: b :: bs else b :: bs

def derLength (n : ℕ) : List UInt8 :=
  if n < 128 then [UInt8.ofNat n] else UInt8.ofNat (128 + (beDigits n).length) :: beDigits n

def derInteger (n : ℕ) : List UInt8 := 0x02 :: (derLength (derContent n).length ++ derContent n)

def derSequence (body : List UInt8) : List UInt8 := 0x30 :: (derLength body.length ++ body)

/-- The first bit is not set. -/
def NonNegative (bs : List UInt8) : Prop := ∃ b rest, bs = b :: rest ∧ b.toNat < 128

lemma nonNegative_derContent (n : ℕ) : NonNegative (derContent n) := by
  unfold derContent
  split
  · exact ⟨0, [], rfl, by decide⟩
  · next b bs h =>
    split_ifs with hb
    · exact ⟨0, b :: bs, rfl, by decide⟩
    · exact ⟨b, bs, rfl, not_le.mp hb⟩

lemma derContent_beValue {b : UInt8} {rest : List UInt8} (hb : b.toNat < 128)
    (hzero : b = 0 → ∀ c ∈ rest.head?, 128 ≤ c.toNat) : derContent (beValue (b :: rest)) = b :: rest := by
  by_cases hb0 : b = 0
  · subst hb0
    rw [beValue_cons, UInt8.toNat_zero, zero_mul, zero_add]
    cases rest with
    | nil => rfl
    | cons c rest =>
      have hc := hzero rfl c rfl
      have hne : c ≠ 0 := by
        rintro rfl
        simp at hc
      rw [derContent, beDigits_beValue hne]
      exact if_pos hc
  · rw [derContent, beDigits_beValue hb0]
    exact if_neg (not_le.mpr hb)

lemma derContent_head {n : ℕ} {b : UInt8} {rest : List UInt8} (h : derContent n = b :: rest) :
    b.toNat < 128 ∧ (b = 0 → ∀ c ∈ rest.head?, 128 ≤ c.toNat) := by
  unfold derContent at h
  split at h
  · obtain ⟨rfl, rfl⟩ := List.cons.inj h
    exact ⟨by decide, fun _ c hc => nomatch hc⟩
  · next d ds hd =>
    split_ifs at h with hsign
    · obtain ⟨rfl, rfl⟩ := List.cons.inj h
      refine ⟨by decide, fun _ c hc => ?_⟩
      obtain rfl := Option.some.inj hc
      exact hsign
    · obtain ⟨rfl, rfl⟩ := List.cons.inj h
      exact ⟨not_le.mp hsign, fun hzero => absurd hzero (beDigits_head hd)⟩

lemma dropWhile_derContent (n : ℕ) : (derContent n).dropWhile (· = 0) = beDigits n := by
  unfold derContent
  split
  · next h => rw [h]; rfl
  · next b bs h =>
    have hb := beDigits_head h
    rw [h]
    split_ifs <;> simp [hb]

end Der

end MutableBitcoin.Lib
