import MutableBitcoin.Script

/-!
# Script numbers are canonical

Every number has one encoding that the constructor of `CScriptNum` accepts under `fRequireMinimal`.
-/

namespace MutableBitcoin
open Lib List CScript Nat

section Magnitude

lemma leValue_eq_zero_iff {bs : Bytes} : leValue bs = 0 ↔ ∀ b ∈ bs, b = 0 := by
  induction bs with
  | nil => simp
  | cons b bs ih => simp [ih, show b = 0 ↔ b.toNat = 0 from UInt8.toNat_inj.symm]

lemma leValue_magnitude (n : ℕ) : leValue (magnitude n) = n := by
  have hdigits : (magnitude n).map UInt8.toNat = Nat.digits 256 n := by
    rw [magnitude, map_map]
    refine (map_congr_left fun d hd => ?_).trans (map_id _)
    simp [mod_eq_of_lt (digits_lt_base (by norm_num) hd)]
  rw [leValue, hdigits, ofDigits_digits]

lemma magnitude_leValue (init : Bytes) {back : UInt8} (hback : back ≠ 0) :
    magnitude (leValue (init ++ [back])) = init ++ [back] := by
  have hdigits : Nat.digits 256 (leValue (init ++ [back])) = (init ++ [back]).map UInt8.toNat := by
    refine digits_ofDigits 256 (by norm_num) _ ?_ ?_
    · intro d hd
      obtain ⟨b, -, rfl⟩ := mem_map.mp hd
      exact b.toNat_lt
    · simpa [← UInt8.toNat_inj] using hback
  rw [magnitude, hdigits, map_map]
  exact (map_congr_left fun b _ => UInt8.ofNat_toNat).trans (map_id _)

lemma magnitude_eq_append {n : ℕ} (hn : n ≠ 0) :
    ∃ init back, magnitude n = init ++ [back] ∧ back ≠ 0 := by
  have hdigits : Nat.digits 256 n ≠ [] := digits_ne_nil_iff_ne_zero.mpr hn
  refine ⟨(Nat.digits 256 n).dropLast.map UInt8.ofNat,
    UInt8.ofNat ((Nat.digits 256 n).getLast hdigits), ?_, ?_⟩
  · calc magnitude n
        = ((Nat.digits 256 n).dropLast ++ [(Nat.digits 256 n).getLast hdigits]).map UInt8.ofNat := by
          rw [dropLast_append_getLast, magnitude]
      _ = _ := by simp
  · have hlt : (Nat.digits 256 n).getLast hdigits < 256 :=
      digits_lt_base (by norm_num) (getLast_mem hdigits)
    rw [Ne, ← UInt8.toNat_inj, UInt8.toNat_ofNat', mod_eq_of_lt hlt]
    exact getLast_digit_ne_zero 256 hn

lemma length_magnitude_le {n k : ℕ} (h : n < 256 ^ k) : (magnitude n).length ≤ k := by
  rw [magnitude, length_map]
  exact (digits_length_le_iff (by norm_num) n).mpr h

end Magnitude

namespace CScriptNum

variable (init : Bytes) (back : UInt8)

lemma setVch_append : setVch (init ++ [back]) =
    if 128 ≤ back.toNat then
      -((leValue init + 256 ^ init.length * (back.toNat - 128) : ℕ) : ℤ)
    else ((leValue init + 256 ^ init.length * back.toNat : ℕ) : ℤ) := by
  have hinit := leValue_lt init
  have hvalue : leValue (init ++ [back]) = leValue init + 256 ^ init.length * back.toNat := by
    simp [leValue_append]
  simp only [setVch, getLast?_concat, and_sign_ne_zero_iff]
  split_ifs with hsign
  · -- the weight of the sign bit is the modulus
    have hmod : 2 ^ (8 * (init ++ [back]).length - 1) = 256 ^ init.length * 128 := by
      rw [length_append, length_singleton, show 256 = 2 ^ 8 by norm_num, ← pow_mul,
        show 128 = 2 ^ 7 by norm_num, ← pow_add]
      congr 1
    have hback := back.toNat_lt
    have hsplit : leValue init + 256 ^ init.length * back.toNat =
        leValue init + 256 ^ init.length * (back.toNat - 128) + 256 ^ init.length * 128 := by
      rw [add_assoc, ← mul_add]
      congr 2
      omega
    have hlt : leValue init + 256 ^ init.length * (back.toNat - 128) < 256 ^ init.length * 128 := by
      calc leValue init + 256 ^ init.length * (back.toNat - 128)
          < 256 ^ init.length + 256 ^ init.length * (back.toNat - 128) := by omega
        _ = 256 ^ init.length * (back.toNat - 128 + 1) := by ring
        _ ≤ 256 ^ init.length * 128 := mul_le_mul_left _ (by omega)
    rw [hvalue, hmod, hsplit, add_mod_right, mod_eq_of_lt hlt]
  · rw [hvalue]

lemma isMinimal_append : isMinimal (init ++ [back]) = true ↔
    back.toNat % 128 ≠ 0 ∨ ∃ init' second, init = init' ++ [second] ∧ 128 ≤ second.toNat := by
  rcases eq_nil_or_concat init with rfl | ⟨init', second, rfl⟩
  · simpa [isMinimal] using and_magnitude_ne_zero_iff back
  · have hmag := and_magnitude_ne_zero_iff back
    have hsign := and_sign_ne_zero_iff second
    simp only [isMinimal, concat_eq_append, reverse_append, reverse_singleton,
      singleton_append, Bool.or_eq_true, bne_iff_ne, hmag, hsign]
    refine or_congr_right ⟨fun h => ⟨init', second, rfl, h⟩, ?_⟩
    rintro ⟨init'', second', heq, h⟩
    obtain ⟨rfl, hlast⟩ := append_inj' heq rfl
    rwa [singleton_inj.mp hlast]

end CScriptNum

open CScriptNum

section Serialize

variable {init : Bytes} {back : UInt8} {value : ℤ}

lemma scriptNumSerialize_of_lt (hmag : magnitude value.natAbs = init ++ [back])
    (hvalue : value ≠ 0) (hback : back.toNat < 128) : scriptNumSerialize value =
      init ++ [if value < 0 then back ||| 0x80 else back] := by
  have hsign : ¬back &&& 0x80 ≠ 0 := by
    rw [and_sign_ne_zero_iff]
    omega
  simp only [scriptNumSerialize, if_neg hvalue, hmag, getLastD_concat, if_neg hsign]
  by_cases hneg : value < 0 <;> simp [hneg]

lemma scriptNumSerialize_of_le (hmag : magnitude value.natAbs = init ++ [back])
    (hvalue : value ≠ 0) (hback : 128 ≤ back.toNat) : scriptNumSerialize value =
      init ++ [back] ++ [if value < 0 then 0x80 else 0] := by
  have hsign : back &&& 0x80 ≠ 0 := (and_sign_ne_zero_iff back).mpr hback
  simp only [scriptNumSerialize, if_neg hvalue, hmag, getLastD_concat, if_pos hsign,
    decide_eq_true_eq]

lemma length_scriptNumSerialize_le {value : ℤ} {k : ℕ} (h : value.natAbs < 256 ^ k) :
    (scriptNumSerialize value).length ≤ k + 1 := by
  have hmagnitude := length_magnitude_le h
  unfold scriptNumSerialize
  split_ifs
  · exact zero_le _
  · dsimp only
    split_ifs
    · rw [length_append]
      exact succ_le_succ hmagnitude
    · rw [length_append]
      exact succ_le_succ hmagnitude
    · rw [length_append, length_dropLast, length_singleton]
      omega
    · exact hmagnitude.trans (le_succ k)

lemma setVch_scriptNumSerialize (value : ℤ) :
    setVch (scriptNumSerialize value) = value ∧
      isMinimal (scriptNumSerialize value) = true := by
  by_cases hvalue : value = 0
  · simp [hvalue, scriptNumSerialize, setVch, isMinimal]
  obtain ⟨init, back, hmag, hback⟩ := magnitude_eq_append (Int.natAbs_ne_zero.mpr hvalue)
  have hval : leValue init + 256 ^ init.length * back.toNat = value.natAbs := by
    rw [← leValue_magnitude value.natAbs, hmag, leValue_append, leValue_cons, leValue_nil,
      mul_zero, add_zero]
  have hne : back.toNat ≠ 0 := fun h => hback (UInt8.toNat_inj.mp h)
  rcases lt_or_ge back.toNat 128 with hlt | hge
  · rw [scriptNumSerialize_of_lt hmag hvalue hlt, setVch_append, isMinimal_append]
    by_cases hneg : value < 0
    · rw [if_pos hneg, toNat_or_sign hlt, if_pos (by omega), Nat.add_sub_cancel, hval]
      exact ⟨by omega, .inl (by omega)⟩
    · rw [if_neg hneg, if_neg (by omega), hval]
      exact ⟨by omega, .inl (by omega)⟩
  · rw [scriptNumSerialize_of_le hmag hvalue hge, setVch_append, isMinimal_append,
      ← hmag, leValue_magnitude]
    refine ⟨?_, .inr ⟨init, back, hmag, hge⟩⟩
    by_cases hneg : value < 0
    · have hsign : (0x80 : UInt8).toNat = 128 := rfl
      rw [if_pos hneg, if_pos hsign.ge, hsign, Nat.sub_self, mul_zero, add_zero]
      omega
    · have hsign : (0 : UInt8).toNat = 0 := rfl
      rw [if_neg hneg, hsign, if_neg (by omega), mul_zero, add_zero]
      omega

lemma scriptNumSerialize_setVch {vch : Bytes} (h : isMinimal vch = true) :
    scriptNumSerialize (setVch vch) = vch := by
  rcases eq_nil_or_concat vch with rfl | ⟨init, back, rfl⟩
  · rfl
  rw [concat_eq_append] at h ⊢
  have hback := back.toNat_lt
  have hvalue := setVch_append init back
  by_cases hlow : back.toNat % 128 = 0
  · -- the last byte is a sign only, so the byte before it is full
    obtain hno | ⟨init', second, rfl, hsecond⟩ := (isMinimal_append init back).mp h
    · exact absurd hlow hno
    have hne : second ≠ 0 := by
      rintro rfl
      simp at hsecond
    have hpos : leValue (init' ++ [second]) ≠ 0 := fun h0 =>
      hne (leValue_eq_zero_iff.mp h0 second (by simp))
    have hmag := magnitude_leValue init' hne
    split_ifs at hvalue with hsign
    · obtain rfl : back = 0x80 := UInt8.toNat_inj.mp (show back.toNat = 128 by omega)
      have hset : setVch (init' ++ [second] ++ [0x80]) = -(leValue (init' ++ [second]) : ℤ) := by
        rw [hvalue, show (0x80 : UInt8).toNat - 128 = 0 from rfl, mul_zero, add_zero]
      rw [scriptNumSerialize_of_le (by rw [hset, Int.natAbs_neg, Int.natAbs_natCast, hmag])
        (by omega) hsecond, if_pos (by omega)]
    · obtain rfl : back = 0 := UInt8.toNat_inj.mp (show back.toNat = 0 by omega)
      have hset : setVch (init' ++ [second] ++ [0]) = (leValue (init' ++ [second]) : ℤ) := by
        rw [hvalue, show (0 : UInt8).toNat = 0 from rfl, mul_zero, add_zero]
      rw [scriptNumSerialize_of_le (by rw [hset, Int.natAbs_natCast, hmag]) (by omega) hsecond,
        if_neg (by omega)]
  · have hmagnitude : ∀ low : UInt8, low.toNat = back.toNat % 128 →
        magnitude (leValue init + 256 ^ init.length * low.toNat) = init ++ [low] := by
      intro low hlow'
      have hne : low ≠ 0 := fun h0 => hlow (by rw [← hlow', h0]; rfl)
      have hmag := magnitude_leValue init hne
      rwa [leValue_append, leValue_cons, leValue_nil, mul_zero, add_zero] at hmag
    have hweight : 0 < 256 ^ init.length := by positivity
    split_ifs at hvalue with hsign
    · obtain ⟨low, hlow'⟩ : ∃ low : UInt8, low.toNat = back.toNat - 128 :=
        ⟨UInt8.ofNat (back.toNat - 128), by rw [UInt8.toNat_ofNat', mod_eq_of_lt (by omega)]⟩
      have hmag := hmagnitude low (by omega)
      have hfull : low ||| 0x80 = back :=
        UInt8.toNat_inj.mp (by rw [toNat_or_sign (by omega)]; omega)
      rw [hlow'] at hmag
      have hpos : 0 < 256 ^ init.length * (back.toNat - 128) := mul_pos hweight (by omega)
      rw [scriptNumSerialize_of_lt (by rw [hvalue, Int.natAbs_neg, Int.natAbs_natCast, hmag])
        (by omega) (by omega), if_pos (by omega), hfull]
    · have hpos : 0 < 256 ^ init.length * back.toNat := mul_pos hweight (by omega)
      rw [scriptNumSerialize_of_lt (by rw [hvalue, Int.natAbs_natCast, hmagnitude back (by omega)])
        (by omega) (by omega), if_neg (by omega)]

end Serialize

section CastToBool

lemma castToBool_append (init : Bytes) (back : UInt8) : castToBool (init ++ [back]) = true ↔
    (∃ b ∈ init, b ≠ 0) ∨ back.toNat % 128 ≠ 0 := by
  induction init with
  | nil =>
    have hback := back.toNat_lt
    simp only [nil_append, castToBool, Bool.and_eq_true, bne_iff_ne, ne_eq, ← UInt8.toNat_inj]
    simp
    omega
  | cons b init ih =>
    obtain ⟨b', rest, hcons⟩ := exists_cons_of_ne_nil (l := init ++ [back]) (by simp)
    rw [hcons] at ih
    rw [cons_append, hcons, castToBool, Bool.or_eq_true, ih, bne_iff_ne]
    simp [or_assoc]

lemma castToBool_iff (vch : Bytes) : castToBool vch = true ↔ setVch vch ≠ 0 := by
  rcases eq_nil_or_concat vch with rfl | ⟨init, back, rfl⟩
  · simp [castToBool, setVch]
  rw [concat_eq_append, castToBool_append, setVch_append]
  have hback := back.toNat_lt
  have hinit : (∃ b ∈ init, b ≠ 0) ↔ leValue init ≠ 0 := by
    rw [Ne, leValue_eq_zero_iff]
    push Not
    rfl
  have hmul : ∀ n, 256 ^ init.length * n = 0 ↔ n = 0 := fun n => by simp
  have hlow := hmul (back.toNat - 128)
  have hfull := hmul back.toNat
  rw [hinit]
  split_ifs with hsign <;> omega

end CastToBool

/-- Script numbers are canonical: decoding inverts encoding on every `int64_t` but the least; under
`fRequireMinimal` the constructor accepts an element of at most `nMaxNumSize` bytes exactly if it is
the encoding of the number it denotes; and `CastToBool` tells the numbers other than zero from zero,
whether or not the element is minimal. -/
theorem CScriptNum.canonical :
    (∀ value : ℤ, INT64_MIN < value → value ≤ INT64_MAX →
      setVch (scriptNumSerialize value) = value) ∧
    (∀ (vch : Bytes) (nMaxNumSize : ℕ), nMaxNumSize ≤ 8 → vch.length ≤ nMaxNumSize →
      ((∃ value, ofVch vch true nMaxNumSize = .ok value) ↔
        vch = scriptNumSerialize (setVch vch)) ∧
      ∀ value, ofVch vch true nMaxNumSize = .ok value → value = setVch vch) ∧
    (∀ value : ℤ, INT64_MIN < value → value ≤ INT64_MAX →
      (castToBool (scriptNumSerialize value) = true ↔ value ≠ 0)) ∧
    ∀ vch : Bytes, vch.length ≤ 8 → (castToBool vch = true ↔ setVch vch ≠ 0) := by
  refine ⟨fun value _ _ => (setVch_scriptNumSerialize value).1, ?_, fun value _ _ => ?_,
    fun vch _ => castToBool_iff vch⟩
  · intro vch nMaxNumSize _ hlen
    have hof : ofVch vch true nMaxNumSize =
        if isMinimal vch then .ok (setVch vch) else .error .nonMinimal := by
      simp only [ofVch, if_neg (not_lt.mpr hlen)]
      cases isMinimal vch <;> rfl
    rw [hof]
    split_ifs with hmin
    · exact ⟨by simp [scriptNumSerialize_setVch hmin], fun value h => (Except.ok.inj h).symm⟩
    · refine ⟨⟨nofun, fun hvch => absurd ?_ hmin⟩, nofun⟩
      rw [hvch]
      exact (setVch_scriptNumSerialize _).2
  · rw [castToBool_iff, (setVch_scriptNumSerialize value).1]

/-- The number -255 fills its byte, so its sign needs another one. -/
theorem CScriptNum.canonical_extra_byte :
    setVch (scriptNumSerialize (-255)) = -255 ∧
      ((∃ value, ofVch [0xff, 0x80] true 4 = .ok value) ↔
        [0xff, 0x80] = scriptNumSerialize (setVch [0xff, 0x80])) ∧
      (castToBool (scriptNumSerialize (-255)) = true ↔ (-255 : ℤ) ≠ 0) ∧
      (castToBool [0, 0x80] = true ↔ setVch [0, 0x80] ≠ 0) :=
  ⟨canonical.1 _ (by decide) (by decide), (canonical.2.1 _ 4 (by decide) (by decide)).1,
    canonical.2.2.1 _ (by decide) (by decide), canonical.2.2.2 _ (by decide)⟩

end MutableBitcoin
