import MutableBitcoin.FixedPointExact

/-!
# Amounts are formatted and parsed back

`FormatMoney` leaves two to eight digits behind the point, and both parsers return the amount it was given.
-/

namespace MutableBitcoin
open Lib List Nat

/-! ### Digits of a number -/

lemma isDigit_toDigits (n : ℕ) : ∀ c ∈ Nat.toDigits 10 n, c.isDigit = true := fun _ hc =>
  isDigit_of_mem_toDigits (by decide) (by decide) hc

lemma decimalValue_toDigits (n : ℕ) : decimalValue (Nat.toDigits 10 n) = n := ofDigitChars_ten_toDigits

lemma head?_toDigits (n : ℕ) (h : (Nat.toDigits 10 n).head? = some '0') : Nat.toDigits 10 n = ['0'] := by
  induction n using Nat.strong_induction_on with
  | _ n ih =>
    by_cases hn : n < 10
    · rw [toDigits_of_lt_base hn] at h ⊢
      rw [head?_cons, Option.some.injEq] at h
      rw [h]
    · have hdigits := Nat.toDigits_of_base_le (by decide : 1 < 10) (Nat.le_of_not_lt hn)
      have hne : Nat.toDigits 10 (n / 10) ≠ [] := toDigits_ne_nil
      rw [hdigits, head?_append_of_ne_nil _ hne] at h
      -- A number that begins with a zero is zero, and so is too small to have another digit.
      have hzero := congrArg decimalValue (ih (n / 10) (by omega) h)
      rw [decimalValue_toDigits] at hzero
      have hsmall : n / 10 = 0 := hzero
      omega

lemma eightDigits_spec {n : ℕ} (hn : n < 10 ^ 8) :
    (eightDigits n).length = 8 ∧ (∀ c ∈ eightDigits n, c.isDigit = true) ∧ decimalValue (eightDigits n) = n := by
  have hlength : (Nat.toDigits 10 n).length ≤ 8 :=
    (length_toDigits_le_iff (by decide) (by decide)).mpr hn
  refine ⟨?_, ?_, ?_⟩
  · rw [eightDigits, length_append, length_replicate, Nat.sub_add_cancel hlength]
  · intro c hc
    obtain hc | hc := mem_append.mp hc
    · rw [eq_of_mem_replicate hc]
      rfl
    · exact isDigit_toDigits n c hc
  · have hzeros : decimalValue (List.replicate (8 - (Nat.toDigits 10 n).length) '0') = 0 := by
      rw [decimalValue, ofDigitChars_replicate_zero, mul_zero]
    rw [eightDigits, decimalValue_append, hzeros, zero_mul, zero_add, decimalValue_toDigits]

/-! ### Trimming -/

lemma countTrim_spec (whole : Str) {ds : Str} (hds : ∀ c ∈ ds, c.isDigit = true) (hlength : 2 ≤ ds.length)
    (rest : Str) :
    ∃ kept, ds = kept ++ List.replicate (countTrim (whole ++ '.' :: ds ++ rest) (whole.length + ds.length)) '0' ∧
      2 ≤ kept.length := by
  induction ds using List.reverseRecOn generalizing rest with
  | nil => exact absurd hlength (by decide)
  | append_singleton ds c ih =>
    obtain ⟨hds, -⟩ := forall_mem_append.mp hds
    rw [length_append, length_singleton] at hlength ⊢
    obtain ⟨k, hk⟩ : ∃ k, ds.length = k + 1 := ⟨ds.length - 1, by omega⟩
    have hindex : whole.length + (ds.length + 1) = (whole.length + k) + 2 := by omega
    have hlast : (whole ++ '.' :: (ds ++ [c]) ++ rest).getD (whole.length + k + 2) nul = c := by
      have hat : whole.length + k + 2 = (whole ++ '.' :: ds).length := by
        rw [length_append, length_cons, hk]
        rfl
      have hsplit : whole ++ '.' :: (ds ++ [c]) ++ rest = (whole ++ '.' :: ds) ++ c :: rest := by simp
      rw [hsplit, hat, getD_append_right _ _ _ _ le_rfl, Nat.sub_self]
      rfl
    have hbefore : (whole ++ '.' :: (ds ++ [c]) ++ rest).getD (whole.length + k) nul = ('.' :: ds).getD k nul := by
      have hsplit : whole ++ '.' :: (ds ++ [c]) ++ rest = whole ++ (('.' :: ds) ++ c :: rest) := by simp
      rw [hsplit, getD_append_right _ _ _ _ (Nat.le_add_right _ _), Nat.add_sub_cancel_left,
        getD_append _ _ _ _ (by rw [length_cons]; omega)]
    rw [hindex, countTrim, hlast, hbefore]
    split_ifs with htrim
    · obtain ⟨hc, hdigit⟩ := htrim
      have htwo : 2 ≤ ds.length := by
        by_contra hfew
        obtain rfl : k = 0 := by omega
        have hpoint : '.'.isDigit = true := hdigit
        exact absurd hpoint (by decide)
      obtain ⟨kept, hkept, hlen⟩ := ih hds htwo ([c] ++ rest)
      have hindex' : whole.length + ds.length = whole.length + k + 1 := by omega
      have htext : whole ++ '.' :: ds ++ ([c] ++ rest) = whole ++ '.' :: (ds ++ [c]) ++ rest := by simp
      rw [hindex', htext] at hkept
      refine ⟨kept, ?_, hlen⟩
      rw [replicate_succ', ← append_assoc, ← hkept, hc]
    · exact ⟨ds ++ [c], (append_nil _).symm, by rwa [length_append, length_singleton]⟩

/-! ### The text of an amount -/

/-- The text of an amount as a number of the grammar. -/
structure IsMoneyText (n : ℤ) (num : JsonNumber) (fraction : DigitText) : Prop where
  minus : num.minus = decide (n < 0)
  whole : num.whole.1 = Nat.toDigits 10 (n.natAbs / 10 ^ 8)
  fraction_eq : num.fraction = some fraction
  exponent : num.exponent = none
  length_le : fraction.1.length ≤ 8
  units : decimalValue fraction.1 * 10 ^ (8 - fraction.1.length) = n.natAbs % 10 ^ 8

lemma formatMoneyText_spec {n : ℤ} (hn : n.natAbs < 10 ^ 18) :
    ∃ num fraction, IsMoneyText n num fraction ∧ formatMoneyText n = .ok num.text := by
  have habs : applySign (!decide (0 < n)) n = .ok (n.natAbs : ℤ) := by
    rw [applySign_eq _ hn]
    congr 1
    by_cases hpos : 0 < n
    · simp [hpos, abs_of_pos hpos]
    · simp [hpos, abs_of_nonpos (not_lt.mp hpos)]
  have hcoin : COIN.toInt = (10 ^ 8 : ℕ) := by decide
  obtain ⟨hlength, hdigits, hvalue⟩ := eightDigits_spec (mod_lt n.natAbs (by decide : 0 < 10 ^ 8))
  obtain ⟨kept, hkept, htwo⟩ := countTrim_spec (Nat.toDigits 10 (n.natAbs / 10 ^ 8)) hdigits (by omega) []
  rw [append_nil] at hkept
  generalize hwhole : Nat.toDigits 10 (n.natAbs / 10 ^ 8) = whole at *
  generalize height : eightDigits (n.natAbs % 10 ^ 8) = ds at *
  have hsize : (whole ++ '.' :: ds).length - 1 = whole.length + ds.length := by
    rw [length_append, length_cons]
    omega
  generalize hcount : countTrim (whole ++ '.' :: ds) (whole.length + ds.length) = t at *
  have hkeptdigits : ∀ c ∈ kept, c.isDigit = true := fun c hc => hdigits c (hkept ▸ mem_append_left _ hc)
  have hlength' := hlength
  rw [hkept, length_append, length_replicate] at hlength'
  have hwhole_digits : whole ≠ [] ∧ ∀ c ∈ whole, c.isDigit = true := by
    rw [← hwhole]
    exact ⟨toDigits_ne_nil, isDigit_toDigits _⟩
  have hhead : whole.head? = some '0' → whole = ['0'] := by
    rw [← hwhole]
    exact head?_toDigits _
  have hne : kept ≠ [] := ne_nil_of_length_pos (by omega)
  refine ⟨⟨decide (n < 0), ⟨whole, hwhole_digits⟩, hhead, some ⟨kept, hne, hkeptdigits⟩, none⟩,
    ⟨kept, hne, hkeptdigits⟩, ⟨rfl, hwhole.symm, rfl, rfl, by dsimp only; omega, ?_⟩, ?_⟩
  · rw [← hvalue, hkept, decimalValue_append, length_replicate]
    have hzeros : decimalValue (List.replicate t '0') = 0 := by
      rw [decimalValue, ofDigitChars_replicate_zero, mul_zero]
    have ht : 8 - kept.length = t := by omega
    dsimp only
    rw [hzeros, ht, add_zero]
  · have htake : (whole ++ '.' :: ds).take ((whole ++ '.' :: ds).length - t) = whole ++ '.' :: kept := by
      have hsplit : whole ++ '.' :: ds = (whole ++ '.' :: kept) ++ List.replicate t '0' := by
        rw [hkept]
        simp
      have hlen : (whole ++ '.' :: ds).length - t = (whole ++ '.' :: kept).length := by
        rw [hsplit, length_append, length_replicate, Nat.add_sub_cancel]
      rw [hlen, hsplit]
      exact take_left
    have hquotient : ((n.natAbs : ℤ) / (10 ^ 8 : ℕ)).toNat = n.natAbs / 10 ^ 8 := by
      rw [← Int.natCast_ediv, Int.toNat_natCast]
    have hremainder : ((n.natAbs : ℤ) % (10 ^ 8 : ℕ)).toNat = n.natAbs % 10 ^ 8 := by
      rw [← Int.natCast_emod, Int.toNat_natCast]
    rw [formatMoneyText, habs]
    change Except.ok _ = _
    rw [hcoin, hquotient, hremainder, hwhole, height, hsize, hcount, htake]
    simp [JsonNumber.text, JsonNumber.fractionText, JsonNumber.exponentText]

lemma IsMoneyText.text_eq {n : ℤ} {num : JsonNumber} {fraction : DigitText} (h : IsMoneyText n num fraction) :
    num.text = signText (n < 0) ++ Nat.toDigits 10 (n.natAbs / 10 ^ 8) ++ '.' :: fraction.1 := by
  rw [JsonNumber.text, JsonNumber.fractionText, JsonNumber.exponentText, h.minus, h.whole, h.fraction_eq, h.exponent]
  simp

lemma IsMoneyText.length_lt {n : ℤ} {num : JsonNumber} {fraction : DigitText} (h : IsMoneyText n num fraction)
    (hn : n.natAbs < 10 ^ 18) : (Nat.toDigits 10 (n.natAbs / 10 ^ 8)).length ≤ 10 ∧ num.text.length < 2 ^ 31 := by
  have hwhole : (Nat.toDigits 10 (n.natAbs / 10 ^ 8)).length ≤ 10 :=
    (length_toDigits_le_iff (by decide) (by decide)).mpr (by omega)
  have hfraction := h.length_le
  refine ⟨hwhole, ?_⟩
  have hsign : (signText (decide (n < 0))).length ≤ 1 := by
    rw [signText]
    split_ifs <;> simp
  rw [h.text_eq, length_append, length_append, length_cons]
  omega

lemma IsMoneyText.value_eq {n : ℤ} {num : JsonNumber} {fraction : DigitText} (h : IsMoneyText n num fraction) :
    num.value * 10 ^ 8 = n := by
  have hlength := h.length_le
  have hunits := h.units
  have hdivmod := div_add_mod n.natAbs (10 ^ 8)
  have hexponent : num.exponentValue = 0 := by rw [JsonNumber.exponentValue, h.exponent]; rfl
  have hfraction : num.fractionDigits = fraction.1 := by rw [JsonNumber.fractionDigits, h.fraction_eq]; rfl
  obtain ⟨t, ht⟩ : ∃ t, 8 = t + fraction.1.length := ⟨8 - fraction.1.length, by omega⟩
  have hdigits : decimalValue num.mantissaDigits * 10 ^ t = n.natAbs := by
    rw [JsonNumber.mantissaDigits, hfraction, h.whole, decimalValue_append, decimalValue_toDigits, add_mul,
      mul_assoc, ← pow_add, add_comm _ t, ← ht]
    have ht' : 8 - fraction.1.length = t := by omega
    rw [ht'] at hunits
    rw [hunits, mul_comm]
    exact hdivmod
  have hscale : num.scale + 8 = (t : ℤ) := by
    rw [JsonNumber.scale, hexponent, hfraction]
    omega
  have hvalue := value_mul num 8
  have hcast : ((8 : ℕ) : ℤ) = 8 := rfl
  rw [hcast, hscale, zpow_natCast] at hvalue
  have hnat : (decimalValue num.mantissaDigits : ℚ) * 10 ^ t = (n.natAbs : ℚ) := by exact_mod_cast hdigits
  rw [hvalue, hnat, JsonNumber.signFactor, h.minus, cast_natAbs]
  by_cases hneg : n < 0
  · rw [if_pos (decide_eq_true hneg), abs_of_neg hneg]
    push_cast
    ring
  · rw [if_neg (by simpa using hneg), abs_of_nonneg (not_lt.mp hneg)]
    push_cast
    ring

lemma parseFixedPoint_formatMoneyText {n : ℤ} (hn : n.natAbs < 10 ^ 18) {text : Str}
    (htext : formatMoneyText n = .ok text) :
    parseFixedPoint text 8 = .ok n := by
  by_cases hzero : n = 0
  · have hformat : formatMoneyText 0 = .ok ['0', '.', '0', '0'] := by decide +kernel
    rw [hzero, hformat] at htext
    cases htext
    rw [hzero]
    decide +kernel
  · obtain ⟨num, fraction, h, hformat⟩ := formatMoneyText_spec hn
    cases hformat.symm.trans htext
    have hparse := parseFixedPoint_text_outcome (h.length_lt hn).2 (by decide : 8 ≤ 18)
    have hvalue := h.value_eq
    have hne : num.value ≠ 0 := by
      intro hnum
      rw [hnum, zero_mul] at hvalue
      exact hzero (by exact_mod_cast hvalue.symm)
    rw [cast_ofNat] at hparse
    cases hresult : parseFixedPoint num.text 8 with
    | ok a =>
      rw [hresult] at hparse
      have ha : (a : ℚ) = n := hparse.trans hvalue
      rw [Int.cast_inj.mp ha]
    | error e =>
      rw [hresult] at hparse
      cases e with
      | rejected => exact absurd (hparse hne n hvalue.symm) (not_le.mpr hn)
      | overflow => exact hparse.elim

/-! ### `ParseMoney` -/

lemma isspace_eq_false {c : Char} (hc : c.isDigit = true) : isspace c = false := by
  have hge : 48 ≤ c.toNat := (Char.isDigit_iff_toNat.mp hc).1
  have hblank : c ≠ ' ' := by
    rintro rfl
    exact absurd hc (by decide)
  have hlarge : ¬ c.toNat ≤ 13 := by omega
  simp [isspace, hblank, hlarge]

lemma toNat_sub_eq {c : Char} (hc : c.isDigit = true) :
    ((c.toNat : ℤ) - ('0'.toNat : ℤ)) = (digitValue c : ℤ) := by
  have hge := (Char.isDigit_iff_toNat.mp hc).1
  rw [digitValue, cast_sub hge]

lemma readUnits_outcome {nUnits nMult : ℤ} (hunits : 0 ≤ nUnits) (hmult : 0 ≤ nMult)
    (hbound : nUnits + 10 * nMult ≤ 10 ^ 8) (p : Str) :
    ParseOutcome (readUnits nUnits nMult p) (fun r => 0 ≤ r.1 ∧ r.1 ≤ 10 ^ 8) True := by
  induction p generalizing nUnits nMult with
  | nil => exact ⟨hunits, by omega⟩
  | cons ch p ih =>
    rw [readUnits]
    split_ifs with hch
    · have hdigit := digitValue_lt hch.1
      have hproduct : 0 ≤ nMult * digitValue ch ∧ nMult * digitValue ch ≤ nMult * 9 :=
        ⟨mul_nonneg hmult (Int.natCast_nonneg _), mul_le_mul_of_nonneg_left (by omega) hmult⟩
      rw [toNat_sub_eq hch.1, checkedInt64_bind ⟨by omega, by omega⟩, checkedInt64_bind ⟨by omega, by omega⟩]
      exact ih (by omega) (by omega) (by omega)
    · exact ⟨hunits, by omega⟩

lemma readUnits_digits {ds : Str} (hds : ∀ c ∈ ds, c.isDigit = true) {k : ℕ} (hk : k ≤ 7)
    (hlength : ds.length ≤ k + 1) {nUnits : ℤ} (hunits : 0 ≤ nUnits) (hbound : nUnits + 10 * 10 ^ k ≤ 10 ^ 8) :
    readUnits nUnits (10 ^ k) ds = .ok (nUnits + (decimalValue ds * 10 ^ (k + 1 - ds.length) : ℕ), []) := by
  induction ds generalizing k nUnits with
  | nil => simp [readUnits]
  | cons c ds ih =>
    obtain ⟨hc, hds⟩ := forall_mem_cons.mp hds
    rw [length_cons] at hlength
    have hdigit := digitValue_lt hc
    have hmult : (0 : ℤ) < 10 ^ k := by positivity
    have hproduct : 0 ≤ (10 : ℤ) ^ k * digitValue c ∧ (10 : ℤ) ^ k * digitValue c ≤ 10 ^ k * 9 :=
      ⟨mul_nonneg hmult.le (Int.natCast_nonneg _), mul_le_mul_of_nonneg_left (by omega) hmult.le⟩
    have hvalue : decimalValue (c :: ds) = digitValue c * 10 ^ ds.length + decimalValue ds := by
      rw [← singleton_append, decimalValue_append, decimalValue_singleton]
    rw [readUnits, if_pos ⟨hc, hmult⟩, toNat_sub_eq hc, checkedInt64_bind ⟨by omega, by omega⟩,
      checkedInt64_bind ⟨by omega, by omega⟩, hvalue, length_cons]
    cases k with
    | zero =>
      have hnil : ds = [] := length_eq_zero_iff.mp (by omega)
      simp [hnil, readUnits]
    | succ k =>
      have hdiv : (10 : ℤ) ^ (k + 1) / 10 = 10 ^ k := by rw [pow_succ, Int.mul_ediv_cancel _ (by decide)]
      rw [hdiv, ih hds (by omega) (by omega) (by omega) (by omega)]
      have hexponent : k + 1 + 1 - (ds.length + 1) = k + 1 - ds.length := by omega
      have hsplit : (10 : ℕ) ^ (k + 1) = 10 ^ ds.length * 10 ^ (k + 1 - ds.length) := by
        rw [← pow_add, Nat.add_sub_cancel' (by omega)]
      rw [hexponent, add_mul, mul_assoc, ← hsplit]
      push_cast
      congr 2
      ring

lemma readCoins_outcome {strWhole : Str} (hwhole : ∀ c ∈ strWhole, c.isDigit = true) (p : Str) :
    ParseOutcome (readCoins strWhole p)
      (fun r => (∀ c ∈ r.1, c.isDigit = true) ∧ 0 ≤ r.2.1 ∧ r.2.1 ≤ 10 ^ 8) True := by
  induction p generalizing strWhole with
  | nil => exact ⟨hwhole, le_rfl, by norm_num⟩
  | cons ch p ih =>
    rw [readCoins]
    split_ifs with hpoint hspace hdigit
    · refine (readUnits_outcome le_rfl (by decide) (by decide) p).bind id ?_
      rintro r hr
      exact ⟨hwhole, hr⟩
    · exact ⟨hwhole, le_rfl, by norm_num⟩
    · refine ih (forall_mem_append.mpr ⟨hwhole, fun c hc => ?_⟩)
      rwa [mem_singleton.mp hc]
    · trivial

lemma readCoins_digits {ds : Str} (hds : ∀ c ∈ ds, c.isDigit = true) (strWhole p : Str) :
    readCoins strWhole (ds ++ p) = readCoins (strWhole ++ ds) p := by
  induction ds generalizing strWhole with
  | nil => rw [nil_append, append_nil]
  | cons c ds ih =>
    obtain ⟨hc, hds⟩ := forall_mem_cons.mp hds
    have hpoint : c ≠ '.' := by
      rintro rfl
      exact absurd hc (by decide)
    have hspace : ¬ isspace c = true := by rw [isspace_eq_false hc]; exact Bool.false_ne_true
    rw [cons_append, readCoins, if_neg hpoint, if_neg hspace, if_neg (not_not.mpr hc), ih hds,
      append_assoc, singleton_append]

lemma atoi64_digits {ds : Str} (hds : ∀ c ∈ ds, c.isDigit = true) (hlength : ds.length ≤ 10) :
    atoi64 ds = decimalValue ds ∧ decimalValue ds < 10 ^ 10 := by
  have hlt : decimalValue ds < 10 ^ 10 :=
    (decimalValue_lt hds).trans_le (Nat.pow_le_pow_right (by decide) hlength)
  refine ⟨?_, hlt⟩
  cases ds with
  | nil => decide
  | cons c ds =>
    have hc := hds c mem_cons_self
    have hplus : c ≠ '+' := by
      rintro rfl
      exact absurd hc (by decide)
    have hminus : c ≠ '-' := by
      rintro rfl
      exact absurd hc (by decide)
    have hspaces : (c :: ds).dropWhile isspace = c :: ds := by simp [isspace_eq_false hc]
    have hsign : isMinus (c :: ds) = false := by simp [isMinus, hminus]
    have hskip : skipSign (c :: ds) = c :: ds := by simp [skipSign, hsign, hplus]
    have htake : (c :: ds).takeWhile Char.isDigit = c :: ds := takeWhile_eq_self_iff.mpr hds
    rw [atoi64, hspaces, hskip, htake, hsign, if_neg Bool.false_ne_true]
    omega

lemma parseMoney_ne_overflow (str : Str) : parseMoney str ≠ .error .overflow := by
  have hcoin : COIN.toInt = 10 ^ 8 := by decide
  suffices h : ParseOutcome (parseMoney str) (fun _ => True) True from h.ne_overflow
  refine (readCoins_outcome (forall_mem_nil _) _).bind id ?_
  rintro ⟨strWhole, nUnits, p⟩ ⟨hwhole, hnonneg, hunits⟩
  dsimp only at hwhole hnonneg hunits ⊢
  split_ifs with hspace hlength hrange
  · trivial
  · trivial
  · obtain ⟨hvalue, hlt⟩ := atoi64_digits hwhole (not_lt.mp hlength)
    rw [hvalue, hcoin, checkedInt64_bind ⟨by omega, by omega⟩, checkedInt64_of_fits ⟨by omega, by omega⟩]
    trivial
  · trivial

lemma parseMoney_formatMoneyText {n : ℤ} (hn : n.natAbs < 10 ^ 18) (hnonneg : 0 ≤ n) {text : Str}
    (htext : formatMoneyText n = .ok text) : parseMoney text = .ok n := by
  obtain ⟨num, fraction, h, hformat⟩ := formatMoneyText_spec hn
  cases hformat.symm.trans htext
  have hcoin : COIN.toInt = 10 ^ 8 := by decide
  have hwhole := isDigit_toDigits (n.natAbs / 10 ^ 8)
  have hwhole_ne : Nat.toDigits 10 (n.natAbs / 10 ^ 8) ≠ [] := toDigits_ne_nil
  have hten := (h.length_lt hn).1
  have hunits := h.units
  have hfraction := h.length_le
  have hvalue := decimalValue_toDigits (n.natAbs / 10 ^ 8)
  have hnotneg : signText (decide (n < 0)) = [] := by
    rw [decide_eq_false (not_lt.mpr hnonneg)]
    rfl
  have htext := h.text_eq
  rw [hnotneg, nil_append] at htext
  generalize Nat.toDigits 10 (n.natAbs / 10 ^ 8) = whole at *
  have hnul : num.text.takeWhile (· ≠ nul) = num.text := by
    refine takeWhile_eq_self_iff.mpr fun c hc => ?_
    rw [htext] at hc
    have hdigit : c = '.' ∨ c.isDigit = true := by
      obtain hc | hc := mem_append.mp hc
      · exact .inr (hwhole c hc)
      · obtain rfl | hc := mem_cons.mp hc
        · exact .inl rfl
        · exact .inr (fraction.2.2 c hc)
    refine decide_eq_true ?_
    rintro rfl
    exact absurd hdigit (by decide)
  have hspaces : num.text.dropWhile isspace = num.text := by
    rw [htext]
    cases whole with
    | nil => exact absurd rfl hwhole_ne
    | cons c whole => simp [isspace_eq_false (hwhole c mem_cons_self)]
  have hmult : CENT.toInt * 10 = 10 ^ 7 := by decide
  have hread : readCoins [] num.text = .ok (whole, (n.natAbs % 10 ^ 8 : ℕ), []) := by
    rw [htext, readCoins_digits hwhole, nil_append, readCoins, if_pos rfl, hmult,
      readUnits_digits fraction.2.2 (by decide) hfraction le_rfl (by decide), ← hunits, zero_add]
    rfl
  obtain ⟨hatoi, hlt⟩ := atoi64_digits hwhole hten
  rw [hvalue] at hatoi hlt
  rw [parseMoney]
  dsimp only
  rw [hnul, hspaces, hread]
  change (if ¬ ([] : Str).all isspace then .error .rejected else if 10 < whole.length then .error .rejected else
    if ((n.natAbs % 10 ^ 8 : ℕ) : ℤ) < 0 ∨ COIN.toInt < (n.natAbs % 10 ^ 8 : ℕ) then .error .rejected else
      checkedInt64 (atoi64 whole * COIN.toInt) >>= fun coins => checkedInt64 (coins + (n.natAbs % 10 ^ 8 : ℕ))) = _
  rw [if_neg (by simp), if_neg (not_lt.mpr hten), if_neg (by rw [hcoin]; omega), hatoi, hcoin,
    checkedInt64_bind ⟨by omega, by omega⟩, checkedInt64_of_fits ⟨by omega, by omega⟩]
  congr 1
  omega

/-- What is parsed is the value of a JSON number, and every number whose value is in range is parsed. Amounts are
parsed back from the text they are formatted as. -/
theorem amounts_exact :
    (∀ (val : Str) (decimals : ℕ), val.length < 2 ^ 31 → decimals ≤ 18 →
      parseFixedPoint val decimals ≠ .error .overflow ∧
      (∀ amount, parseFixedPoint val decimals = .ok amount →
        ∃ num : JsonNumber, val = num.text ∧ (amount : ℚ) = num.value * 10 ^ decimals ∧ |amount| ≤ 10 ^ 18 - 1) ∧
      (∀ num : JsonNumber, val = num.text → num.value ≠ 0 → parseFixedPoint val decimals = .error .rejected →
        ¬ ∃ amount : ℤ, (amount : ℚ) = num.value * 10 ^ decimals ∧ |amount| ≤ 10 ^ 18 - 1)) ∧
    (∀ n : ℤ, |n| < 10 ^ 18 → ∃ text, formatMoneyText n = .ok text ∧ parseFixedPoint text 8 = .ok n ∧
      (0 ≤ n → parseMoney text = .ok n)) ∧
    ∀ str, parseMoney str ≠ .error .overflow := by
  refine ⟨fun val decimals hval hdecimals => ⟨?_, fun amount hamount => ?_, ?_⟩, fun n hn => ?_,
    parseMoney_ne_overflow⟩
  · exact (parseFixedPoint_outcome hval hdecimals).ne_overflow
  · have hparse := parseFixedPoint_outcome hval hdecimals
    rw [hamount] at hparse
    obtain ⟨num, htext, hvalue, habs⟩ := hparse
    exact ⟨num, htext, hvalue, by rw [Int.abs_eq_natAbs]; omega⟩
  · rintro num rfl hne hrejected ⟨amount, hvalue, habs⟩
    have hparse := parseFixedPoint_text_outcome hval hdecimals
    rw [hrejected] at hparse
    have hle : 10 ^ 18 ≤ amount.natAbs := hparse hne amount hvalue
    rw [Int.abs_eq_natAbs] at habs
    omega
  · rw [Int.abs_eq_natAbs] at hn
    have hn' : n.natAbs < 10 ^ 18 := by omega
    obtain ⟨num, fraction, -, hformat⟩ := formatMoneyText_spec hn'
    exact ⟨num.text, hformat, parseFixedPoint_formatMoneyText hn' hformat, fun hnonneg =>
      parseMoney_formatMoneyText hn' hnonneg hformat⟩

end MutableBitcoin
