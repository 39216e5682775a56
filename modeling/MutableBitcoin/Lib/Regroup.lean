import MutableBitcoin.Lib.Radix
import Mathlib.Data.List.TakeWhile

/-!
# Regrouping bits

A string of bits is given as digits of one width and cut into digits of another, first bits first. What has been
read is what has been cut off so far and some bits that are left.
-/

namespace MutableBitcoin.Lib
open List Nat

/-- The digits `ds` of `w` bits have been cut into the digits `es` of `v` bits, with `bits` bits left. -/
structure Regrouped (w v : ℕ) (ds es : List ℕ) (left bits : ℕ) : Prop where
  length_eq : ds.length * w = es.length * v + bits
  value_eq : radixValue (2 ^ w) ds = radixValue (2 ^ v) es * 2 ^ bits + left
  left_lt : left < 2 ^ bits
  digit_lt : ∀ e ∈ es, e < 2 ^ v

/-- The digits `es` of `v` bits are those of `w` bits in `ds`, with as many zeros as fill the last of them. -/
structure Padded (w v : ℕ) (ds es : List ℕ) (k : ℕ) : Prop where
  length_eq : es.length * v = ds.length * w + k
  lt : k < v
  value_eq : radixValue (2 ^ v) es = radixValue (2 ^ w) ds * 2 ^ k

section Regrouped
variable {w v : ℕ} {ds es : List ℕ} {left bits : ℕ}

lemma regrouped_nil (w v : ℕ) : Regrouped w v [] [] 0 0 := ⟨by simp, by simp, one_pos, by simp⟩

lemma Regrouped.read (h : Regrouped w v ds es left bits) {d : ℕ} (hd : d < 2 ^ w) :
    Regrouped w v (ds ++ [d]) es (left * 2 ^ w + d) (bits + w) where
  length_eq := by
    rw [length_append, length_singleton, add_mul, h.length_eq, one_mul, add_assoc]
  value_eq := by
    rw [radixValue_concat, h.value_eq, pow_add]
    ring
  left_lt := by
    have hleft := h.left_lt
    calc left * 2 ^ w + d < left * 2 ^ w + 2 ^ w := Nat.add_lt_add_left hd _
      _ = (left + 1) * 2 ^ w := by ring
      _ ≤ 2 ^ bits * 2 ^ w := mul_le_mul_right _ hleft
      _ = 2 ^ (bits + w) := (pow_add 2 bits w).symm
  digit_lt := h.digit_lt

lemma Regrouped.cut (bits : ℕ) (h : Regrouped w v ds es left (bits + v)) :
    Regrouped w v ds (es ++ [left / 2 ^ bits]) (left % 2 ^ bits) bits where
  length_eq := by
    rw [h.length_eq, length_append, length_singleton]
    ring
  value_eq := by
    have hdiv := div_add_mod left (2 ^ bits)
    rw [h.value_eq, radixValue_concat, pow_add]
    calc radixValue (2 ^ v) es * (2 ^ bits * 2 ^ v) + left
        = radixValue (2 ^ v) es * (2 ^ bits * 2 ^ v) + (2 ^ bits * (left / 2 ^ bits) + left % 2 ^ bits) := by
          rw [hdiv]
      _ = (2 ^ v * radixValue (2 ^ v) es + left / 2 ^ bits) * 2 ^ bits + left % 2 ^ bits := by ring
  left_lt := Nat.mod_lt _ (Nat.two_pow_pos bits)
  digit_lt e he := by
    obtain he | he := mem_append.mp he
    · exact h.digit_lt e he
    · rw [mem_singleton.mp he]
      refine Nat.div_lt_of_lt_mul ?_
      rw [← pow_add]
      exact h.left_lt

lemma Regrouped.padded_zero (h : Regrouped w v ds es left 0) (hv : 0 < v) : Padded w v ds es 0 where
  length_eq := by rw [h.length_eq, Nat.add_zero]
  lt := hv
  value_eq := by
    have hleft : left = 0 := lt_one_iff.mp h.left_lt
    rw [h.value_eq, hleft]
    ring

lemma Regrouped.padded (h : Regrouped w v ds es left bits) (hpos : 0 < bits) {k : ℕ} (hbits : bits + k = v) :
    Padded w v ds (es ++ [left * 2 ^ k]) k where
  length_eq := by
    rw [length_append, length_singleton, h.length_eq, add_mul, one_mul, ← hbits,
      ← add_assoc]
  lt := by omega
  value_eq := by
    rw [radixValue_concat, h.value_eq, ← hbits, pow_add]
    ring

lemma Regrouped.padded_symm (h : Regrouped w v ds es 0 bits) (hbits : bits < w) : Padded v w es ds bits where
  length_eq := h.length_eq
  lt := hbits
  value_eq := by rw [h.value_eq, add_zero]

end Regrouped

section Padded
variable {w v k : ℕ} {ds es : List ℕ}

lemma eq_of_radixValue_eq {base : ℕ} (hbase : 1 < base) {xs ys : List ℕ} (hlength : xs.length = ys.length)
    (hxs : ∀ x ∈ xs, x < base) (hys : ∀ y ∈ ys, y < base) (hvalue : radixValue base xs = radixValue base ys) :
    xs = ys := by
  rw [← reverse_inj]
  exact ofDigits_inj_of_len_eq hbase (by simpa using hlength) (fun x hx => hxs x (mem_reverse.mp hx))
    (fun y hy => hys y (mem_reverse.mp hy)) hvalue

lemma Padded.right_unique (h : Padded w v ds es k) {es' : List ℕ} {k' : ℕ} (h' : Padded w v ds es' k')
    (hes : ∀ e ∈ es, e < 2 ^ v) (hes' : ∀ e ∈ es', e < 2 ^ v) : es = es' ∧ k = k' := by
  have hv : 0 < v := zero_lt_of_lt h.lt
  have hlength := h.length_eq
  have hlength' := h'.length_eq
  have hlen : es.length = es'.length := by
    have h₁ := h.lt
    have h₂ := h'.lt
    by_contra hne
    obtain hlt | hlt := lt_or_gt_of_ne hne
    · have hmul := mul_le_mul_right v hlt
      rw [succ_mul] at hmul
      omega
    · have hmul := mul_le_mul_right v hlt
      rw [succ_mul] at hmul
      omega
  have hk : k = k' := by
    rw [hlen] at hlength
    omega
  refine ⟨eq_of_radixValue_eq (Nat.one_lt_two_pow hv.ne') hlen hes hes' ?_, hk⟩
  rw [h.value_eq, h'.value_eq, hk]

lemma Padded.regrouped (h : Padded w v ds es k) (hvw : v ≤ w) {ds' : List ℕ} {left bits : ℕ}
    (h' : Regrouped v w es ds' left bits) (hbits : bits < w) (hds : ∀ d ∈ ds, d < 2 ^ w) :
    ds' = ds ∧ bits = k ∧ left = 0 := by
  have hlength := h.length_eq
  have hlength' := h'.length_eq
  have hk := h.lt
  have hlen : ds'.length = ds.length := by
    by_contra hne
    obtain hlt | hlt := lt_or_gt_of_ne hne
    · have hmul := mul_le_mul_right w hlt
      rw [succ_mul] at hmul
      omega
    · have hmul := mul_le_mul_right w hlt
      rw [succ_mul] at hmul
      omega
  have hbits : bits = k := by
    rw [hlen] at hlength'
    omega
  have hvalue := h.value_eq.symm.trans h'.value_eq
  rw [hbits] at hvalue
  have hleft : left = 0 := by
    have hlt := h'.left_lt
    rw [hbits] at hlt
    have hmod := congrArg (· % 2 ^ k) hvalue
    simp only [mul_mod_left, mul_add_mod_self_right, mod_eq_of_lt hlt] at hmod
    exact hmod.symm
  rw [hleft, add_zero] at hvalue
  have hpos : 0 < w := zero_lt_of_lt (hk.trans_le hvw)
  refine ⟨eq_of_radixValue_eq (Nat.one_lt_two_pow hpos.ne') hlen h'.digit_lt hds ?_, hbits, hleft⟩
  exact (Nat.eq_of_mul_eq_mul_right (Nat.two_pow_pos k) hvalue).symm

end Padded

/-!
## Bytes as padded text

A codec writes the bits of a byte string as characters, a fixed number of bits each, and fills the last group up
with `=`. Its decoder reads characters as long as it knows them.
-/

def knownPart (digit : Char → Option ℕ) (s : List Char) : List Char := s.takeWhile fun c => (digit c).isSome

def afterKnown (digit : Char → Option ℕ) (s : List Char) : List Char := s.dropWhile fun c => (digit c).isSome

def digitsOf (digit : Char → Option ℕ) (s : List Char) : List ℕ := (knownPart digit s).filterMap digit

/-- Nothing follows, or no digit. -/
def StopsAt (digit : Char → Option ℕ) (s : List Char) : Prop := ∀ c ∈ s.head?, digit c = none

/-- A codec with the alphabet, the padding and what its two functions do. -/
structure PaddedCodec where
  width : ℕ
  width_le : width ≤ 8
  char : ℕ → Char
  digit : Char → Option ℕ
  fold : Char → Char
  pads : ℕ → ℕ
  encode : List UInt8 → List Char
  decode : List Char → List UInt8 × Bool
  digit_char : ∀ e < 2 ^ width, digit (char e) = some e
  digit_lt : ∀ c e, digit c = some e → e < 2 ^ width
  char_digit : ∀ c e, digit c = some e → char e = fold c
  digit_fold : ∀ c, digit (fold c) = digit c
  digit_pad : digit '=' = none
  fold_pad_iff : ∀ c, fold c = '=' ↔ c = '='
  encode_spec : ∀ bytes : List UInt8, ∃ es k, Padded 8 width (bytes.map UInt8.toNat) es k ∧
    (∀ e ∈ es, e < 2 ^ width) ∧ encode bytes = es.map char ++ List.replicate (pads k) '='
  decode_spec : ∀ s, ∃ left bits,
    Regrouped width 8 (digitsOf digit s) ((decode s).1.map UInt8.toNat) left bits ∧ bits < 8 ∧
    ((decode s).2 = false ↔ left = 0 ∧ bits < width ∧
      ∃ rest, afterKnown digit s = List.replicate (pads bits) '=' ++ rest ∧ StopsAt digit rest)

section Parts
variable {digit : Char → Option ℕ} {known rest : List Char}

lemma knownPart_append (hknown : ∀ c ∈ known, (digit c).isSome = true) (hrest : StopsAt digit rest) :
    knownPart digit (known ++ rest) = known ∧ afterKnown digit (known ++ rest) = rest := by
  have htake : rest.takeWhile (fun c => (digit c).isSome) = [] ∧
      rest.dropWhile (fun c => (digit c).isSome) = rest := by
    cases rest with
    | nil => exact ⟨rfl, rfl⟩
    | cons c rest =>
      have hnone := hrest c rfl
      simp [hnone]
  rw [knownPart, afterKnown, takeWhile_append_of_pos hknown, dropWhile_append_of_pos hknown, htake.1,
    htake.2, append_nil]
  exact ⟨rfl, rfl⟩

lemma stopsAt_afterKnown (s : List Char) : StopsAt digit (afterKnown digit s) := by
  intro c hc
  have hnot := head?_dropWhile_not (fun c => (digit c).isSome) s
  rw [afterKnown] at hc
  rw [hc] at hnot
  simpa using hnot

lemma isSome_of_mem_knownPart {s : List Char} {c : Char} (h : c ∈ knownPart digit s) :
    (digit c).isSome = true := by
  have hin := mem_takeWhile_imp h
  exact hin

end Parts

namespace PaddedCodec
variable (C : PaddedCodec)

lemma fold_char {e : ℕ} (he : e < 2 ^ C.width) : C.fold (C.char e) = C.char e :=
  (C.char_digit _ _ (C.digit_char e he)).symm

lemma digit_eq_none_iff {alphabet : List Char} (halphabet : alphabet = (List.range (2 ^ C.width)).map C.char)
    (c : Char) : C.digit c = none ↔ C.fold c ∉ alphabet := by
  rw [halphabet, mem_map]
  constructor
  · rintro hnone ⟨e, he, hchar⟩
    have hdigit := C.digit_char e (mem_range.mp he)
    rw [hchar, C.digit_fold, hnone] at hdigit
    cases hdigit
  · intro hnot
    refine Option.eq_none_iff_forall_ne_some.mpr fun e he => hnot ⟨e, ?_, C.char_digit c e he⟩
    exact mem_range.mpr (C.digit_lt c e he)

lemma map_fold_eq {known : List Char} (hknown : ∀ c ∈ known, (C.digit c).isSome = true) :
    known.map C.fold = (known.filterMap C.digit).map C.char := by
  induction known with
  | nil => rfl
  | cons c known ih =>
    obtain ⟨hc, hrest⟩ := forall_mem_cons.mp hknown
    obtain ⟨e, he⟩ := Option.isSome_iff_exists.mp hc
    rw [map_cons, ih hrest, filterMap_cons_some he, map_cons, C.char_digit c e he]

lemma filterMap_digit {es : List ℕ} (hes : ∀ e ∈ es, e < 2 ^ C.width) {known : List Char}
    (hfold : known.map C.fold = es.map C.char) :
    known.filterMap C.digit = es ∧ ∀ c ∈ known, (C.digit c).isSome = true := by
  induction known generalizing es with
  | nil =>
    have hnil : es = [] := map_eq_nil_iff.mp hfold.symm
    simp [hnil]
  | cons c known ih =>
    cases es with
    | nil => cases hfold
    | cons e es =>
      obtain ⟨he, hrest⟩ := forall_mem_cons.mp hes
      rw [map_cons, map_cons, List.cons.injEq] at hfold
      obtain ⟨hmap, hsome⟩ := ih hrest hfold.2
      have hdigit : C.digit c = some e := by
        rw [← C.digit_fold, hfold.1, C.digit_char e he]
      rw [filterMap_cons_some hdigit, hmap]
      exact ⟨rfl, forall_mem_cons.mpr ⟨by rw [hdigit]; rfl, hsome⟩⟩

lemma eq_replicate_of_fold {p : List Char} {n : ℕ} (h : p.map C.fold = List.replicate n '=') :
    p = List.replicate n '=' := by
  have hlength : p.length = n := by simpa using congrArg List.length h
  refine eq_replicate_iff.mpr ⟨hlength, fun c hc => ?_⟩
  have hmem : C.fold c ∈ List.replicate n '=' := by
    rw [← h]
    exact mem_map_of_mem hc
  exact (C.fold_pad_iff c).mp (eq_of_mem_replicate hmem)

/-- The decoder returns what an encoding stands for, whatever unknown character follows it. -/
theorem decode_append {text rest : List Char} {bytes : List UInt8} (htext : text.map C.fold = C.encode bytes)
    (hrest : StopsAt C.digit rest) : C.decode (text ++ rest) = (bytes, false) := by
  obtain ⟨es, k, hpadded, hes, hencode⟩ := C.encode_spec bytes
  rw [hencode] at htext
  obtain ⟨known, pad, rfl, hknown, hpad⟩ := map_eq_append_iff.mp htext
  obtain ⟨hdigits, hsome⟩ := C.filterMap_digit hes hknown
  have hpad := C.eq_replicate_of_fold hpad
  have hstops : StopsAt C.digit (List.replicate (C.pads k) '=' ++ rest) := by
    cases hk : C.pads k with
    | zero => exact hrest
    | succ n =>
      intro c hc
      obtain rfl : '=' = c := by simpa [replicate_succ] using hc
      exact C.digit_pad
  obtain ⟨hpart, hafter⟩ := knownPart_append hsome hstops
  rw [← hpad, ← append_assoc] at hpart hafter
  obtain ⟨left, bits, hregrouped, hbits, hvalid⟩ := C.decode_spec (known ++ pad ++ rest)
  rw [digitsOf, hpart, hdigits] at hregrouped
  have hbytes : ∀ d ∈ bytes.map UInt8.toNat, d < 2 ^ 8 := by
    intro d hd
    obtain ⟨b, -, rfl⟩ := mem_map.mp hd
    exact b.toNat_lt
  obtain ⟨heq, rfl, rfl⟩ := hpadded.regrouped C.width_le hregrouped hbits hbytes
  have hfirst : (C.decode (known ++ pad ++ rest)).1 = bytes :=
    map_injective_iff.mpr (fun _ _ => UInt8.toNat_inj.mp) heq
  refine Prod.ext hfirst (hvalid.mpr ⟨rfl, hpadded.lt, rest, ?_, hrest⟩)
  rw [hafter, hpad]

lemma decode_eq {text : List Char} {bytes : List UInt8} (htext : text.map C.fold = C.encode bytes) :
    C.decode text = (bytes, false) := by
  have hstops : StopsAt C.digit [] := by simp [StopsAt]
  have hdecode := C.decode_append htext hstops
  rwa [append_nil] at hdecode

/-- What the decoder accepts begins with the encoding of what it returns. -/
theorem exists_of_decode {s : List Char} (hvalid : (C.decode s).2 = false) :
    ∃ text rest, s = text ++ rest ∧ text.map C.fold = C.encode (C.decode s).1 ∧ StopsAt C.digit rest := by
  obtain ⟨left, bits, hregrouped, -, hiff⟩ := C.decode_spec s
  obtain ⟨rfl, hbits, rest, hafter, hstops⟩ := hiff.mp hvalid
  obtain ⟨es, k, hpadded, hes, hencode⟩ := C.encode_spec (C.decode s).1
  have hdigits : ∀ e ∈ digitsOf C.digit s, e < 2 ^ C.width := by
    intro e he
    obtain ⟨c, -, hc⟩ := mem_filterMap.mp he
    exact C.digit_lt c e hc
  obtain ⟨rfl, rfl⟩ := (hregrouped.padded_symm hbits).right_unique hpadded hdigits hes
  have hfold : (List.replicate (C.pads bits) '=').map C.fold = List.replicate (C.pads bits) '=' := by
    rw [map_replicate, (C.fold_pad_iff '=').mpr rfl]
  refine ⟨knownPart C.digit s ++ List.replicate (C.pads bits) '=', rest, ?_, ?_, hstops⟩
  · rw [append_assoc, ← hafter]
    exact takeWhile_append_dropWhile.symm
  · rw [map_append, hfold, C.map_fold_eq fun c hc => isSome_of_mem_knownPart hc, hencode]
    rfl

theorem decode_encode (bytes : List UInt8) : C.decode (C.encode bytes) = (bytes, false) := by
  obtain ⟨es, k, -, hes, hencode⟩ := C.encode_spec bytes
  refine C.decode_eq ?_
  rw [hencode, map_append, map_map, map_replicate, (C.fold_pad_iff '=').mpr rfl]
  exact congrArg (· ++ _) (map_congr_left fun e he => C.fold_char (hes e he))

/-- An encoding with something behind it that is no digit. -/
def HasTrailer (s : List Char) : Prop :=
  ∃ text rest bytes, s = text ++ rest ∧ text.map C.fold = C.encode bytes ∧ ∃ c ∈ rest.head?, C.digit c = none

/-- Exactly the texts with a trailer are accepted without being the encoding of what is returned. -/
theorem accepts_iff (s : List Char) :
    ((C.decode s).2 = false ↔ s.map C.fold = C.encode (C.decode s).1) ↔ ¬ C.HasTrailer s := by
  constructor
  · rintro h ⟨text, rest, bytes, rfl, htext, c, hc, hnone⟩
    have hstops : StopsAt C.digit rest := by
      intro c' hc'
      obtain rfl : c = c' := Option.some.inj (hc.symm.trans hc')
      exact hnone
    have hdecode := C.decode_append htext hstops
    have hfold := h.mp (by rw [hdecode])
    rw [hdecode, ← htext, map_append, append_right_eq_self, map_eq_nil_iff] at hfold
    rw [hfold] at hc
    cases hc
  · intro hno
    constructor
    · intro hvalid
      obtain ⟨text, rest, hs, htext, hstops⟩ := C.exists_of_decode hvalid
      cases rest with
      | nil =>
        rw [append_nil] at hs
        rwa [hs] at htext ⊢
      | cons c rest => exact absurd ⟨text, c :: rest, _, hs, htext, c, rfl, hstops c rfl⟩ hno
    · intro hfold
      rw [C.decode_eq hfold]

end PaddedCodec
end MutableBitcoin.Lib
