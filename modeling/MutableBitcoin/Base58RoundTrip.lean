import MutableBitcoin.Base58

/-!
# Base58 is a bijection

The conditions under which the two functions invert each other. The sizes of their buffers suffice where they fit
into an `int`.
-/

namespace MutableBitcoin
open Lib List Nat UInt8

lemma toNat_ofNat_radixDigits (n : ℕ) :
    ((radixDigits 256 n).map UInt8.ofNat).map UInt8.toNat = radixDigits 256 n := by
  rw [map_map]
  refine (map_congr_left fun d hd => ?_).trans (map_id _)
  rw [Function.comp_apply, toNat_ofNat', mod_eq_of_lt (lt_of_mem_radixDigits (by decide) hd)]
  rfl

lemma head?_ofNat_radixDigits (n : ℕ) : ((radixDigits 256 n).map UInt8.ofNat).head? ≠ some 0 := by
  intro hzero
  rw [head?_map, Option.map_eq_some_iff] at hzero
  obtain ⟨d, hd, hbyte⟩ := hzero
  have hlt := lt_of_mem_radixDigits (by decide : 1 < 256) (mem_of_mem_head? hd)
  have htoNat := congrArg UInt8.toNat hbyte
  rw [toNat_ofNat', mod_eq_of_lt hlt] at htoNat
  subst htoNat
  exact head?_radixDigits_ne_zero 256 n hd

section Leading
variable {α : Type} [DecidableEq α] {a : α} {xs : List α}

lemma takeWhile_replicate_append (n : ℕ) (hhead : xs.head? ≠ some a) :
    (List.replicate n a ++ xs).takeWhile (· == a) = List.replicate n a := by
  induction n with
  | zero =>
    cases xs with
    | nil => rfl
    | cons x xs =>
      have hne : (x == a) = false := beq_eq_false_iff_ne.mpr fun heq => hhead (by rw [heq]; rfl)
      simp [hne]
  | succ n ih => simp [replicate_succ, ih]

lemma dropWhile_replicate_append (n : ℕ) (hhead : xs.head? ≠ some a) :
    (List.replicate n a ++ xs).dropWhile (· == a) = xs := by
  induction n with
  | zero =>
    cases xs with
    | nil => rfl
    | cons x xs =>
      have hne : (x == a) = false := beq_eq_false_iff_ne.mpr fun heq => hhead (by rw [heq]; rfl)
      simp [hne]
  | succ n ih => simp [replicate_succ, ih]

end Leading

def CStringOf (str : Str) : Str := str.takeWhile (· ≠ '\x00')

/-- Encoding bytes and decoding the text gives the bytes. -/
def EncodesBack (vch : Bytes) : Prop :=
  ∃ str, encodeBase58 vch = .ok str ∧ decodeBase58 str = .ok (some vch)

/-- Decoding a text and encoding the result gives its digits. -/
structure DecodesBack (str : Str) : Prop where
  accepts : ∀ before core after, IsBase58Text str before core after →
    ∃ vch, decodeBase58 str = .ok (some vch) ∧ encodeBase58 vch = .ok core
  rejects : (¬ ∃ before core after, IsBase58Text str before core after) → decodeBase58 str = .ok none

/-- The buffer suffices for the C string, and if that is a text over the alphabet, nothing follows it and its
number has at most as many bytes as can be encoded. -/
structure TextFits (str : Str) : Prop where
  buffer : BufferFits (CStringOf str)
  encodable : (∃ before core after, IsBase58Text (CStringOf str) before core after) →
    '\x00' ∉ str ∧
    ∃ k, k * 138 / 100 + 1 < 2 ^ 31 ∧ textValue (numberPart (afterOnes (CStringOf str))) < 256 ^ k

lemma bytesValue_ofNat_radixDigits (n : ℕ) : bytesValue ((radixDigits 256 n).map UInt8.ofNat) = n := by
  rw [bytesValue, toNat_ofNat_radixDigits, radixValue_radixDigits]

section Decoded
variable (zeroes n : ℕ)

lemma encodeFits_decoded_iff :
    EncodeFits (List.replicate zeroes 0 ++ (radixDigits 256 n).map UInt8.ofNat) ↔
      zeroes < 2 ^ 31 ∧ ∃ k, k * 138 / 100 + 1 < 2 ^ 31 ∧ n < 256 ^ k := by
  have htake := takeWhile_replicate_append zeroes (head?_ofNat_radixDigits n)
  have hdrop := dropWhile_replicate_append zeroes (head?_ofNat_radixDigits n)
  constructor
  · rintro ⟨hzeroes, hsize⟩
    rw [htake, length_replicate] at hzeroes
    rw [hdrop, length_map] at hsize
    exact ⟨hzeroes, _, hsize, (length_radixDigits_le_iff (by decide) n _).mp le_rfl⟩
  · rintro ⟨hzeroes, k, hk, hn⟩
    have hlength := (length_radixDigits_le_iff (by decide : 1 < 256) n k).mpr hn
    refine ⟨by rwa [htake, length_replicate], ?_⟩
    rw [hdrop, length_map]
    have hmono := Nat.div_le_div_right (Nat.mul_le_mul_right 138 hlength) (c := 100)
    omega

lemma encodedText_decoded :
    encodedText (List.replicate zeroes 0 ++ (radixDigits 256 n).map UInt8.ofNat) =
      List.replicate zeroes '1' ++ numberText n := by
  rw [encodedText, takeWhile_replicate_append zeroes (head?_ofNat_radixDigits n),
    dropWhile_replicate_append zeroes (head?_ofNat_radixDigits n), length_replicate,
    bytesValue_ofNat_radixDigits]

end Decoded

lemma cStringOf_eq_self {str : Str} (h : '\x00' ∉ str) : CStringOf str = str := by
  refine takeWhile_eq_self_iff.mpr fun c hc => decide_eq_true ?_
  rintro rfl
  exact h hc

lemma IsBase58Text.nul_notMem {str before core after : Str} (h : IsBase58Text str before core after) :
    '\x00' ∉ str := by
  rw [h.eq]
  simp only [mem_append, not_or]
  refine ⟨⟨fun hin => ?_, fun hin => ?_⟩, fun hin => ?_⟩
  · exact absurd (h.before_space _ hin) (by decide)
  · exact absurd (h.core_mem _ hin) (by decide)
  · exact absurd (h.after_space _ hin) (by decide)

lemma mem_of_mem_numberText {n : ℕ} {c : Char} (h : c ∈ numberText n) : c ∈ pszBase58 := by
  obtain ⟨d, hd, rfl⟩ := mem_map.mp h
  exact getD_mem (lt_of_mem_radixDigits (by decide) hd)

lemma textValue_numberText (n : ℕ) : textValue (numberText n) = n := by
  have hdigits : (numberText n).map base58Digit = radixDigits 58 n := by
    rw [numberText, map_map]
    refine (map_congr_left fun d hd => ?_).trans (map_id _)
    exact base58Digit_getD (lt_of_mem_radixDigits (by decide) hd)
  rw [textValue, hdigits, radixValue_radixDigits]

lemma head?_numberText (n : ℕ) : (numberText n).head? ≠ some '1' := by
  intro hone
  rw [numberText, head?_map, Option.map_eq_some_iff] at hone
  obtain ⟨d, hd, hchar⟩ := hone
  have hlt := lt_of_mem_radixDigits (by decide : 1 < 58) (mem_of_mem_head? hd)
  have hdigit := base58Digit_getD hlt
  rw [hchar] at hdigit
  subst hdigit
  exact head?_radixDigits_ne_zero 58 n hd

lemma parts_numberText (zeroes n : ℕ) :
    let str := List.replicate zeroes '1' ++ numberText n
    onesPart str = zeroes ∧ afterOnes str = numberText n ∧ numberPart (afterOnes str) = numberText n ∧
      afterNumber (afterOnes str) = [] ∧ CStringOf str = str := by
  intro str
  have hmem : ∀ c ∈ str, c ∈ pszBase58 := by
    intro c hc
    obtain hc | hc := mem_append.mp hc
    · rw [eq_of_mem_replicate hc]
      decide
    · exact mem_of_mem_numberText hc
  have hspace : str.dropWhile isspace = str := by
    have hdrop := dropWhile_append_of_neg [] fun c hc => isspace_of_mem (hmem c hc)
    simpa using hdrop
  have hafter : afterOnes str = numberText n := by
    rw [afterOnes, hspace, dropWhile_replicate_append zeroes (head?_numberText n)]
  have hnumber : ∀ c ∈ numberText n, decide (c ∈ pszBase58) = true := fun c hc =>
    decide_eq_true (mem_of_mem_numberText hc)
  refine ⟨?_, hafter, ?_, ?_, ?_⟩
  · rw [onesPart, hspace, takeWhile_replicate_append zeroes (head?_numberText n), length_replicate]
  · rw [hafter, numberPart, takeWhile_eq_self_iff.mpr hnumber]
  · rw [hafter, afterNumber, dropWhile_eq_nil_iff.mpr hnumber]
  · exact cStringOf_eq_self fun hnul => absurd (hmem _ hnul) (by decide)

lemma decodedSize_of_lt {n : ℕ} (h : n < 2 ^ 31) : narrow (decodedSize n) = (n * 733 / 1000 + 1 : ℕ) := by
  have hsize : decodedSize n = n * 733 / 1000 + 1 := by
    rw [decodedSize, mod_eq_of_lt (by omega)]
  rw [hsize, narrow_of_lt (by omega)]

lemma bufferFits_of_length {psz : Str} (hones : onesPart psz < 2 ^ 31) (hlength : (afterOnes psz).length < 2 ^ 31) :
    BufferFits psz := by
  have hsize := decodedSize_of_lt hlength
  refine ⟨hones, by rw [hsize]; exact Int.natCast_nonneg _, ?_⟩
  rw [hsize, Int.toNat_natCast]
  refine (textValue_lt fun c hc => mem_of_mem_numberPart hc).trans_le (Nat.pow_le_pow_right (by decide) ?_)
  have hle : (numberPart (afterOnes psz)).length ≤ (afterOnes psz).length :=
    (List.takeWhile_prefix _).length_le
  have hmono := Nat.div_le_div_right (mul_le_mul_right 733 hle) (c := 1000)
  omega

lemma decodedBytes_encodedText (vch : Bytes) : decodedBytes (encodedText vch) = vch := by
  obtain ⟨hones, hafter, hnumber, -, -⟩ := parts_numberText (vch.takeWhile (· == 0)).length
    (bytesValue (vch.dropWhile (· == 0)))
  have hbytes : ∀ d ∈ (vch.dropWhile (· == 0)).map UInt8.toNat, d < 256 := by
    intro d hd
    obtain ⟨b, -, rfl⟩ := mem_map.mp hd
    exact b.toNat_lt
  have hhead : ((vch.dropWhile (· == 0)).map UInt8.toNat).head? ≠ some 0 := by
    intro hzero
    rw [head?_map, Option.map_eq_some_iff] at hzero
    obtain ⟨b, hb, hzero⟩ := hzero
    rw [UInt8.toNat_inj.mp (hzero.trans UInt8.toNat_zero.symm)] at hb
    exact head?_dropWhile_ne 0 vch hb
  have hzeros : vch.takeWhile (· == 0) = List.replicate (vch.takeWhile (· == 0)).length 0 :=
    eq_replicate_of_mem fun b hb => by
      have hzero := mem_takeWhile_imp hb
      exact beq_iff_eq.mp hzero
  have hback : ((vch.dropWhile (· == 0)).map UInt8.toNat).map UInt8.ofNat = vch.dropWhile (· == 0) := by
    rw [map_map]
    exact (map_congr_left fun b _ => UInt8.ofNat_toNat).trans (map_id _)
  rw [encodedText, decodedBytes, hones, hnumber, textValue_numberText, bytesValue,
    radixDigits_radixValue (by decide) hbytes hhead, hback, ← hzeros, takeWhile_append_dropWhile]

lemma encodesBack_of_fits {vch : Bytes} (h : EncodeFits vch) : EncodesBack vch := by
  refine ⟨encodedText vch, encodeBase58_of_fits h, ?_⟩
  obtain ⟨hones, hafter, -, hend, hnul⟩ := parts_numberText (vch.takeWhile (· == 0)).length
    (bytesValue (vch.dropWhile (· == 0)))
  have hsize := h.size_lt
  have hlength : (numberText (bytesValue (vch.dropWhile (· == 0)))).length < 2 ^ 31 := by
    rw [numberText, length_map]
    refine ((length_radixDigits_le_iff (by decide) _ _).mpr (bytesValue_lt _)).trans_lt hsize
  rw [← encodedText] at hones hafter hend hnul
  have hfits := bufferFits_of_length (hones.trans_lt h.zeroes_lt) (by rwa [hafter])
  rw [CStringOf] at hnul
  rw [decodeBase58, hnul, decodeCString_of_fits hfits, hend, decodedBytes_encodedText]
  rfl

lemma decodesBack_of_fits {str : Str} (h : TextFits str) : DecodesBack str where
  accepts before core after htext := by
    have hstr := cStringOf_eq_self htext.nul_notMem
    obtain ⟨hones, hnumber, hend⟩ := htext.parts
    have hbuffer := h.buffer
    have hencodable := (h.encodable ⟨before, core, after, by rwa [hstr]⟩).2
    rw [hstr] at hbuffer hencodable
    rw [hnumber] at hencodable
    have hbytes : decodedBytes str = List.replicate (core.takeWhile (· == '1')).length 0 ++
        (radixDigits 256 (textValue (core.dropWhile (· == '1')))).map UInt8.ofNat := by
      rw [decodedBytes, hones, hnumber]
    refine ⟨decodedBytes str, ?_, ?_⟩
    · rw [CStringOf] at hstr
      rw [decodeBase58, hstr, decodeCString_of_fits hbuffer, if_pos hend]
    · have hfits := (encodeFits_decoded_iff (core.takeWhile (· == '1')).length _).mpr
        ⟨hones ▸ hbuffer.ones_lt, hencodable⟩
      rw [hbytes, encodeBase58_of_fits hfits, encodedText_decoded, ← core_eq htext.core_mem]
  rejects hno := by
    have hend : (afterNumber (afterOnes (CStringOf str))).dropWhile isspace ≠ [] := by
      intro hend
      obtain ⟨before, core, after, htext⟩ := exists_isBase58Text hend
      have hnul := (h.encodable ⟨before, core, after, htext⟩).1
      rw [cStringOf_eq_self hnul] at htext
      exact hno ⟨before, core, after, htext⟩
    exact (decodeCString_of_fits h.buffer).trans (by rw [if_neg hend])

lemma DecodesBack.fits {str : Str} (h : DecodesBack str) : TextFits str := by
  have hbuffer : BufferFits (CStringOf str) := by
    by_contra hnot
    obtain ⟨e, herror⟩ := decodeCString_of_not_fits hnot
    by_cases htext : ∃ before core after, IsBase58Text str before core after
    · obtain ⟨before, core, after, htext⟩ := htext
      obtain ⟨vch, hdecode, -⟩ := h.accepts before core after htext
      cases hdecode.symm.trans herror
    · cases (h.rejects htext).symm.trans herror
  refine ⟨hbuffer, ?_⟩
  rintro ⟨before, core, after, htext⟩
  obtain ⟨hones, hnumber, hend⟩ := htext.parts
  have hdecode : decodeBase58 str = .ok (some (decodedBytes (CStringOf str))) :=
    (decodeCString_of_fits hbuffer).trans (by rw [if_pos hend])
  have hnul : '\x00' ∉ str := by
    intro hin
    have hno : ¬ ∃ before core after, IsBase58Text str before core after := by
      rintro ⟨before, core, after, htext'⟩
      exact htext'.nul_notMem hin
    rw [h.rejects hno, Except.ok.injEq] at hdecode
    cases hdecode
  rw [cStringOf_eq_self hnul] at htext hdecode hnumber hones ⊢
  refine ⟨hnul, ?_⟩
  obtain ⟨vch, hdecode', hencode⟩ := h.accepts before core after htext
  rw [hdecode, Except.ok.injEq, Option.some.injEq] at hdecode'
  subst hdecode'
  have hfits : EncodeFits (decodedBytes str) := by
    by_contra hnot
    obtain ⟨e, herror⟩ := encodeBase58_of_not_fits hnot
    cases hencode.symm.trans herror
  exact ((encodeFits_decoded_iff _ _).mp hfits).2

/-- Exactly when the two functions invert each other on a byte string, and on a text. -/
theorem base58_bijection_iff (vch : Bytes) (str : Str) :
    (EncodesBack vch ↔ EncodeFits vch) ∧ (DecodesBack str ↔ TextFits str) := by
  refine ⟨⟨fun h => ?_, encodesBack_of_fits⟩, ⟨DecodesBack.fits, decodesBack_of_fits⟩⟩
  by_contra hnot
  obtain ⟨e, herror⟩ := encodeBase58_of_not_fits hnot
  obtain ⟨str, hencode, -⟩ := h
  cases hencode.symm.trans herror

/-- The decoder does not see what follows a NUL. -/
theorem decodeBase58_ignoresNul : ¬ DecodesBack ['2', 'g', '\x00', '!'] := by
  intro h
  have hno : ¬ ∃ before core after, IsBase58Text ['2', 'g', '\x00', '!'] before core after := by
    rintro ⟨before, core, after, htext⟩
    exact htext.nul_notMem (by decide)
  have hdecode : decodeBase58 ['2', 'g', '\x00', '!'] = .ok (some [97]) := by decide
  rw [h.rejects hno, Except.ok.injEq] at hdecode
  cases hdecode

end MutableBitcoin
