import MutableBitcoin.Transaction

/-!
# The value of a blob's text

`SetHex` as it walks through the text: white space and the prefix are skipped, and the digits are
taken from the last one back.
-/

namespace MutableBitcoin
open Lib List

namespace BaseBlob

lemma leValue_take (width : ℕ) (bs : Bytes) (h : width ≤ bs.length) :
    leValue (bs.take width) = leValue bs % 256 ^ width := by
  have hlen : (bs.take width).length = width := by rw [length_take, min_eq_left h]
  have hlt := leValue_lt (bs.take width)
  have hval := leValue_append (bs.take width) (bs.drop width)
  rw [hlen] at hlt hval
  rw [take_append_drop] at hval
  rw [hval, Nat.add_mul_mod_self_left, Nat.mod_eq_of_lt hlt]

lemma leValue_fit_mod (width : ℕ) (bs : Bytes) :
    leValue (fit width bs) = leValue bs % 256 ^ width := by
  rw [fit, leValue_take width _ (by simp), leValue_append, leValue_replicate_zero, mul_zero,
    add_zero]

lemma hexRun_eq_nil {t : Str} (ht : t.head?.bind hexDigit = none) : hexRun t = [] := by
  cases t with
  | nil => rfl
  | cons c t =>
    have hc : hexDigit c = none := by simpa using ht
    rw [hexRun, hc]

/-- Nothing, or the prefix in either case. -/
def IsHexPrefix (pre : Str) : Prop :=
  pre = [] ∨ pre = ['0', 'x'] ∨ pre = ['0', 'X']

/-- A lone zero without a prefix before it and with an `x` after it. -/
def ReadsAsPrefix (pre digits suffix : Str) : Prop :=
  pre = [] ∧ digits = ['0'] ∧ (suffix.head? = some 'x' ∨ suffix.head? = some 'X')

lemma dropWhile_isspace_append {ws t : Str} (hws : ∀ c ∈ ws, isspace c) :
    (ws ++ t).dropWhile isspace = t.dropWhile isspace := by
  rw [dropWhile_append_of_pos hws]

lemma skipHexPrefix_text {ws pre digits suffix : Str} (hws : ∀ c ∈ ws, isspace c)
    (hpre : IsHexPrefix pre) (hd : ∀ c ∈ digits, (hexDigit c).isSome) (hne : digits ≠ [])
    (hx : ¬ReadsAsPrefix pre digits suffix) :
    skipHexPrefix ((ws ++ pre ++ digits ++ suffix).dropWhile isspace) = digits ++ suffix := by
  rw [append_assoc, append_assoc, dropWhile_isspace_append hws]
  rcases hpre with rfl | rfl | rfl
  · rw [nil_append]
    obtain ⟨c, s, rfl⟩ := exists_cons_of_ne_nil hne
    cases s with
    | nil =>
      by_cases hc : c = '0'
      · subst hc
        have ht : suffix.head? ≠ some 'x' ∧ suffix.head? ≠ some 'X' := by
          simpa [ReadsAsPrefix] using hx
        exact skipHexPrefix_append (s := ['0']) hd hne ht
      · have hsp := isspace_eq_false_of_hexDigit (hd c (by simp))
        cases suffix with
        | nil => simp [hsp, skipHexPrefix]
        | cons d suffix => simp [hsp, skipHexPrefix, hc]
    | cons d s =>
      have hstart := skipHexPrefix_append (t := d :: s ++ suffix) (s := [c])
        (fun x hx => hd x (by simp_all)) (by simp) (by
          have hdd := hd d (by simp)
          constructor <;> rintro h
          · rw [cons_append, head?_cons, Option.some.injEq] at h
            rw [h, hexDigit_x] at hdd
            simp at hdd
          · rw [cons_append, head?_cons, Option.some.injEq] at h
            rw [h, hexDigit_X] at hdd
            simp at hdd)
      simpa using hstart
  · rfl
  · rfl

/-- The value of a text is the number of its digits modulo the range of the blob. -/
theorem value_setHex_text {width : ℕ} {ws pre digits suffix : Str}
    (hws : ∀ c ∈ ws, isspace c) (hpre : IsHexPrefix pre)
    (hd : ∀ c ∈ digits, (hexDigit c).isSome) (hne : digits ≠ [])
    (hs : suffix.head?.bind hexDigit = none) (hx : ¬ReadsAsPrefix pre digits suffix) :
    (setHex width (ws ++ pre ++ digits ++ suffix)).value = hexValue digits % 256 ^ width := by
  simp only [setHex, value]
  rw [skipHexPrefix_text hws hpre hd hne hx, hexRun_append hd, hexRun_eq_nil hs,
    append_nil, leValue_fit_mod, leValue_packNibbles (fun d h =>
      hexRun_lt (mem_reverse.mp h)), ofDigits_hexRun hd]

end BaseBlob

lemma pow_uint1024 : (256 : ℕ) ^ 128 = 2 ^ 1024 := by
  rw [show (256 : ℕ) = 2 ^ 8 by norm_num, ← pow_mul]

lemma value_uint1024S_integertoHexString {n : ℕ} (hn : n < 2 ^ 1024) :
    (uint1024S (integertoHexString n)).value = n := by
  have hv := @BaseBlob.value_setHex_text 128 [] [] (Nat.toDigits 16 n) ['h'] (by simp) (Or.inl rfl)
    (fun c hc => isSome_hexDigit_of_mem_toDigits hc) Nat.toDigits_ne_nil (by decide)
    (by
      rintro ⟨-, -, h | h⟩
      · exact absurd h (by decide)
      · exact absurd h (by decide))
  rw [uint1024S, integertoHexString, if_neg (not_lt.mpr (Int.natCast_nonneg n)), Int.natAbs_natCast]
  simp only [nil_append] at hv ⊢
  rw [hv, hexValue_toDigits, pow_uint1024, Nat.mod_eq_of_lt hn]

lemma uint1024S_integerOfBlob (b : Uint1024) :
    uint1024S (integertoHexString (integerOfBlob b)) = b := by
  apply BaseBlob.value_injective
  rw [integerOfBlob_eq]
  exact value_uint1024S_integertoHexString (b.value_lt.trans_eq pow_uint1024)

/-- Text keeps the value of a blob: its own text is read back, the digits after white space and
an optional prefix are read modulo the width, and integers survive the way through text. -/
theorem hex_text_keeps_value :
    (∀ (width : ℕ) (b : BaseBlob width), BaseBlob.setHex width b.getHex = b) ∧
    (∀ (width x : ℕ) (ws pre digits suffix : Str), (∀ c ∈ ws, isspace c) →
      BaseBlob.IsHexPrefix pre → (∀ c ∈ digits, (hexDigit c).isSome) → digits ≠ [] →
      hexValue digits = x → suffix.head?.bind hexDigit = none →
      ¬BaseBlob.ReadsAsPrefix pre digits suffix →
        (BaseBlob.setHex width (ws ++ pre ++ digits ++ suffix)).value = x % 256 ^ width ∧
        (digits.length ≤ 2 * width →
          (BaseBlob.setHex width (ws ++ pre ++ digits ++ suffix)).value = x)) ∧
    (∀ b : Uint1024, uint1024S (integertoHexString (integerOfBlob b)) = b) ∧
    (∀ r : ℤ, 0 ≤ r → r < 2 ^ 1024 → integerOfBlob (uint1024S (integertoHexString r)) = r) := by
  refine ⟨fun width b => BaseBlob.setHex_getHex b, ?_, uint1024S_integerOfBlob, ?_⟩
  · rintro width x ws pre digits suffix hws hpre hd hne rfl hs hx
    have hmod := @BaseBlob.value_setHex_text width _ _ _ _ hws hpre hd hne hs hx
    refine ⟨hmod, fun hl => ?_⟩
    have hlt : hexValue digits < 256 ^ width := by
      rw [← leValue_fit_packNibbles hd hl]
      exact (leValue_lt _).trans_eq (by rw [length_fit])
    rw [hmod, Nat.mod_eq_of_lt hlt]
  · intro r hr hlt
    obtain ⟨n, rfl⟩ := Int.eq_ofNat_of_zero_le hr
    rw [integerOfBlob_eq, value_uint1024S_integertoHexString]
    exact_mod_cast hlt

theorem hex_text_keeps_value_padded :
    (BaseBlob.setHex 20 " 0X00fFh".toList).value = 255 ∧
    integerOfBlob (uint1024S (integertoHexString 255)) = 255 := by
  have h := hex_text_keeps_value.2.1 20 255 [' '] ['0', 'X'] ['0', '0', 'f', 'F'] ['h']
    (all_eq_true.mp (by decide)) (Or.inr (Or.inr rfl)) (all_eq_true.mp (by decide)) (by decide) (by decide)
    (by decide)
    (by
      rintro ⟨h, -⟩
      exact absurd h (by decide))
  exact ⟨h.2 (by decide), hex_text_keeps_value.2.2.2 255 (by decide) (by decide +kernel)⟩

/-- The digit of zero before a suffix that starts with an `x` is read as a prefix. -/
theorem hex_text_lone_zero :
    hexValue ['0'] = 0 ∧ ['x', '1', '2'].head?.bind hexDigit = none ∧
    (BaseBlob.setHex 20 (['0'] ++ ['x', '1', '2'])).value = 18 ∧
    (BaseBlob.setHex 32 (['0'] ++ ['x', '1', '2'])).value = 18 ∧
    (BaseBlob.setHex 128 (['0'] ++ ['x', '1', '2'])).value = 18 := by
  decide +kernel

end MutableBitcoin
