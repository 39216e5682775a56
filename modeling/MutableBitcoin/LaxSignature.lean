import MutableBitcoin.SignatureChecker
import MutableBitcoin.Lib.Der

/-!
# Strict and lax parsing of signatures

`ecdsa_signature_parse_der_lax` of `pubkey.cpp`, with the function of secp256k1 that it fills the
result with. Every access is checked.
-/

namespace MutableBitcoin
open Lib List Nat

section Compact

def SECP256K1_N : ℕ := 0xFFFFFFFFFFFFFFFFFFFFFFFFFFFFFFFEBAAEDCE6AF48A03BBFD25E8CD0364141

/-- The two scalars. -/
structure EcdsaSignature where
  r : ℕ
  s : ℕ
deriving DecidableEq

/-- `secp256k1_scalar_set_b32`: the scalar and whether it was reduced. -/
def scalarSetB32 (b32 : Bytes) : ℕ × Bool :=
  if SECP256K1_N ≤ beValue b32 then (beValue b32 - SECP256K1_N, true) else (beValue b32, false)

/-- `secp256k1_ecdsa_signature_parse_compact`. -/
def ecdsaSignatureParseCompact (input64 : Bytes) : Bool × EcdsaSignature :=
  let r := scalarSetB32 (input64.take 32)
  let s := scalarSetB32 (input64.drop 32)
  if !r.2 && !s.2 then (true, ⟨r.1, s.1⟩) else (false, ⟨0, 0⟩)

end Compact

/-- How a parser stops early. -/
inductive ParseStop where
  | returnZero
  | readOutside
  | sizeUnderflow
  | writeOutside
deriving DecidableEq

abbrev Parse := Except ParseStop

section Access

variable (input : Bytes)

/-- `input[pos]`. -/
def inputAt (pos : ℕ) : Parse UInt8 :=
  match input[pos]? with
  | none => .error .readOutside
  | some b => .ok b

/-- `inputlen - pos`. -/
def remaining (pos : ℕ) : Parse ℕ := if input.length < pos then .error .sizeUnderflow else .ok (input.length - pos)

/-- `memcpy` up to the end of a half of `tmpsig`, which is zero before. -/
def copyHalf (pos len : ℕ) : Parse Bytes :=
  if input.length < pos + len then .error .readOutside
  else if 32 < len then .error .writeOutside
  else .ok (List.replicate (32 - len) 0 ++ (input.drop pos).take len)

end Access

section Lax

variable (input : Bytes)

def tagByte (tag : UInt8) (pos : ℕ) : Parse ℕ :=
  if pos = input.length then .error .returnZero
  else do
    let b ← inputAt input pos
    if b ≠ tag then .error .returnZero else .ok (pos + 1)

def skipZeros : ℕ → ℕ → Parse (ℕ × ℕ)
  | 0, pos => .ok (0, pos)
  | len + 1, pos => do
    let b ← inputAt input pos
    if b = 0 then skipZeros len (pos + 1) else .ok (len + 1, pos)

/-- The bytes of a length, in a `size_t`. -/
def lengthBytes : ℕ → ℕ → ℕ → Parse (ℕ × ℕ)
  | 0, pos, len => .ok (len, pos)
  | lenbyte + 1, pos, len => do
    let b ← inputAt input pos
    lengthBytes lenbyte (pos + 1) ((len * 256 + b.toNat) % 2 ^ 64)

/-- The length of the sequence is only skipped. -/
def sequenceLength (pos : ℕ) : Parse ℕ :=
  if pos = input.length then .error .returnZero
  else do
    let lenbyte ← inputAt input pos
    if lenbyte &&& 0x80 ≠ 0 then
      if input.length < pos + 1 + (lenbyte.toNat - 0x80) then .error .returnZero
      else .ok (pos + 1 + (lenbyte.toNat - 0x80))
    else .ok (pos + 1)

def integerLength (pos : ℕ) : Parse (ℕ × ℕ) :=
  if pos = input.length then .error .returnZero
  else do
    let lenbyte ← inputAt input pos
    if lenbyte &&& 0x80 ≠ 0 then
      if input.length < pos + 1 + (lenbyte.toNat - 0x80) then .error .returnZero
      else do
        let (lenbyte, pos) ← skipZeros input (lenbyte.toNat - 0x80) (pos + 1)
        -- sizeof(size_t)
        if 8 ≤ lenbyte then .error .returnZero else lengthBytes input lenbyte pos 0
    else .ok (lenbyte.toNat, pos + 1)

def parseInteger (pos : ℕ) : Parse (ℕ × ℕ) := do
  let pos ← tagByte input 0x02 pos
  let (len, pos) ← integerLength input pos
  let rest ← remaining input pos
  if rest < len then .error .returnZero else .ok (pos, len)

/-- An integer in its half of `tmpsig`, `none` if it is too long. -/
def copyInteger (pos len : ℕ) : Parse (Option Bytes) := do
  let (len, pos) ← skipZeros input len pos
  if 32 < len then .ok none
  else do
    let half ← copyHalf input pos len
    .ok (some half)

/-- The signature from the halves of `tmpsig`. It is overwritten if one overflows or parsing fails. -/
def loadSignature (r s : Option Bytes) : EcdsaSignature :=
  let (parsed, sig) := match r, s with
    | some r, some s => ecdsaSignatureParseCompact (r ++ s)
    | _, _ => (false, ⟨0, 0⟩)
  if parsed then sig else (ecdsaSignatureParseCompact (List.replicate 64 0)).2

/-- `ecdsa_signature_parse_der_lax`. -/
def parseDerLax : Parse EcdsaSignature := do
  let pos ← tagByte input 0x30 0
  let pos ← sequenceLength input pos
  let (rpos, rlen) ← parseInteger input pos
  let (spos, slen) ← parseInteger input (rpos + rlen)
  let r ← copyInteger input rpos rlen
  let s ← copyInteger input spos slen
  .ok (loadSignature r s)

/-- The returned number as a condition, with the signature. -/
def ecdsaSignatureParseDerLax : Parse (Bool × EcdsaSignature) :=
  match parseDerLax input with
  | .ok sig => .ok (true, sig)
  | .error .returnZero => .ok (false, (ecdsaSignatureParseCompact (List.replicate 64 0)).2)
  | .error stop => .error stop

end Lax

section Strict

variable (sig : Bytes)

/-- The tests for an integer in `IsValidSignatureEncoding`, with the reads they make. -/
def isPositiveIntegerAt (start len : ℕ) : Parse Bool :=
  if len = 0 then .ok false
  else do
    let first ← inputAt sig start
    if first &&& 0x80 ≠ 0 then .ok false
    else if 1 < len ∧ first = 0x00 then do
      let second ← inputAt sig (start + 1)
      .ok (second &&& 0x80 != 0)
    else .ok true

/-- `IsValidSignatureEncoding` with the reads it makes. -/
def isValidSignatureEncodingAt : Parse Bool :=
  if sig.length < 9 then .ok false
  else if 73 < sig.length then .ok false
  else do
    if (← inputAt sig 0) ≠ 0x30 then return false
    if (← inputAt sig 1).toNat ≠ sig.length - 3 then return false
    let lenR := (← inputAt sig 3).toNat
    if sig.length ≤ 5 + lenR then return false
    let lenS := (← inputAt sig (5 + lenR)).toNat
    if lenR + lenS + 7 ≠ sig.length then return false
    if (← inputAt sig 2) ≠ 0x02 then return false
    if !(← isPositiveIntegerAt sig 4 lenR) then return false
    if (← inputAt sig (lenR + 4)) ≠ 0x02 then return false
    isPositiveIntegerAt sig (lenR + 6) lenS

end Strict

section Safety

variable {input : Bytes} {pos len : ℕ}

/-- A run that stops has returned zero. -/
abbrev Accesses {α : Type} (x : Parse α) (post : α → Prop) : Prop := Yields (· = .returnZero) x post

lemma accesses_inputAt (h : pos < input.length) : Accesses (inputAt input pos) (fun b => input[pos]? = some b) := by
  rw [inputAt, getElem?_eq_getElem h]
  rfl

lemma accesses_tagByte (tag : UInt8) (h : pos ≤ input.length) :
    Accesses (tagByte input tag pos) (fun pos => pos ≤ input.length) := by
  unfold tagByte
  split_ifs with hend
  · rfl
  · apply (accesses_inputAt (lt_of_le_of_ne h hend)).bind
    intro b _
    split_ifs with hb
    · rfl
    · exact succ_le_of_lt (lt_of_le_of_ne h hend)

lemma accesses_skipZeros (h : pos + len ≤ input.length) :
    Accesses (skipZeros input len pos) (fun rest => rest.2 + rest.1 = pos + len) := by
  induction len generalizing pos with
  | zero => rfl
  | succ len ih =>
    unfold skipZeros
    apply (accesses_inputAt (show pos < input.length by omega)).bind
    intro b _
    split_ifs with hb
    · exact (ih (by omega)).mono (fun rest hrest => by omega)
    · rfl

lemma accesses_lengthBytes (value : ℕ) (h : pos + len ≤ input.length) :
    Accesses (lengthBytes input len pos value) (fun rest => rest.2 = pos + len) := by
  induction len generalizing pos value with
  | zero => rfl
  | succ len ih =>
    unfold lengthBytes
    apply (accesses_inputAt (show pos < input.length by omega)).bind
    intro b _
    exact (ih _ (by omega)).mono (fun rest hrest => by omega)

lemma accesses_sequenceLength (h : pos ≤ input.length) :
    Accesses (sequenceLength input pos) (fun pos => pos ≤ input.length) := by
  unfold sequenceLength
  split_ifs with hend
  · rfl
  · apply (accesses_inputAt (lt_of_le_of_ne h hend)).bind
    intro lenbyte _
    by_cases hlong : lenbyte &&& 0x80 ≠ 0
    · rw [if_pos hlong]
      generalize lenbyte.toNat - 0x80 = k
      by_cases hlen : input.length < pos + 1 + k
      · rw [if_pos hlen]
        rfl
      · rw [if_neg hlen]
        exact not_lt.mp hlen
    · rw [if_neg hlong]
      exact succ_le_of_lt (lt_of_le_of_ne h hend)

lemma accesses_integerLength (h : pos ≤ input.length) :
    Accesses (integerLength input pos) (fun rest => rest.2 ≤ input.length) := by
  unfold integerLength
  split_ifs with hend
  · rfl
  · apply (accesses_inputAt (lt_of_le_of_ne h hend)).bind
    intro lenbyte _
    by_cases hlong : lenbyte &&& 0x80 ≠ 0
    · rw [if_pos hlong]
      generalize lenbyte.toNat - 0x80 = k
      by_cases hlen : input.length < pos + 1 + k
      · rw [if_pos hlen]
        rfl
      · rw [if_neg hlen]
        apply (accesses_skipZeros (not_lt.mp hlen)).bind
        rintro ⟨rest, pos'⟩ hrest
        dsimp only at hrest ⊢
        split_ifs with hsize
        · rfl
        · exact (accesses_lengthBytes 0 (show pos' + rest ≤ input.length by omega)).mono
            (fun result hresult => by omega)
    · rw [if_neg hlong]
      exact succ_le_of_lt (lt_of_le_of_ne h hend)

lemma accesses_parseInteger (h : pos ≤ input.length) :
    Accesses (parseInteger input pos) (fun rest => rest.1 + rest.2 ≤ input.length) := by
  apply (accesses_tagByte 0x02 h).bind
  intro pos' hpos'
  apply (accesses_integerLength hpos').bind
  rintro ⟨len, start⟩ hstart
  dsimp only at hstart ⊢
  rw [remaining, if_neg (not_lt.mpr hstart), ok_bind]
  split_ifs with hshort
  · rfl
  · show start + len ≤ input.length
    omega

lemma accesses_copyInteger (h : pos + len ≤ input.length) : Accesses (copyInteger input pos len) (fun _ => True) := by
  apply (accesses_skipZeros h).bind
  rintro ⟨rest, start⟩ hrest
  dsimp only at hrest ⊢
  split_ifs with hlong
  · trivial
  · rw [copyHalf, if_neg (by omega), if_neg hlong, ok_bind]
    trivial

lemma accesses_parseDerLax (input : Bytes) : Accesses (parseDerLax input) (fun _ => True) := by
  apply (accesses_tagByte 0x30 (zero_le _)).bind
  intro pos hpos
  apply (accesses_sequenceLength hpos).bind
  intro pos hpos
  apply (accesses_parseInteger hpos).bind
  rintro ⟨rpos, rlen⟩ hr
  apply (accesses_parseInteger hr).bind
  rintro ⟨spos, slen⟩ hs
  apply (accesses_copyInteger hr).bind
  intro r _
  apply (accesses_copyInteger hs).bind
  intro s _
  trivial

lemma ecdsaSignatureParseDerLax_returns (input : Bytes) : ∃ result, ecdsaSignatureParseDerLax input = .ok result := by
  have h := accesses_parseDerLax input
  unfold ecdsaSignatureParseDerLax
  cases hparse : parseDerLax input with
  | ok sig => exact ⟨_, rfl⟩
  | error stop =>
    rw [hparse] at h
    obtain rfl : stop = .returnZero := h
    exact ⟨_, rfl⟩

end Safety

section Reads

variable {sig : Bytes} {start len : ℕ}

lemma inputAt_of_lt {i : ℕ} (h : i < sig.length) : inputAt sig i = .ok (sig.getD i 0) := by
  simp [inputAt, h]

lemma isPositiveIntegerAt_eq (h : start + len ≤ sig.length) :
    isPositiveIntegerAt sig start len = .ok (isPositiveInteger sig start len) := by
  unfold isPositiveIntegerAt isPositiveInteger
  by_cases hlen : len = 0
  · rw [if_pos hlen, hlen]
    rfl
  · rw [if_neg hlen, inputAt_of_lt (by omega), ok_bind]
    generalize hfirst : sig.getD start 0 = first
    have hlen' : (len != 0) = true := by simpa using hlen
    by_cases hsign : first &&& 0x80 = 0
    · rw [if_neg (not_not.mpr hsign), hlen', beq_iff_eq.mpr hsign]
      by_cases hzero : 1 < len ∧ first = 0x00
      · rw [if_pos hzero, inputAt_of_lt (by omega), ok_bind, decide_eq_true hzero.1, beq_iff_eq.mpr hzero.2]
        rfl
      · rw [if_neg hzero]
        have hneither : (decide (1 < len) && first == 0x00) = false := by simpa using hzero
        rw [hneither]
        rfl
    · rw [if_pos hsign, beq_eq_false_iff_ne.mpr hsign, Bool.and_false]
      rfl

lemma test_eq {c : Prop} [Decidable c] {test : Bool} {x : Parse Bool} {rest : Bool} (htest : test = true ↔ ¬ c)
    (h : ¬ c → x = .ok rest) : (if c then .ok false else x) = .ok (test && rest) := by
  by_cases hc : c
  · rw [if_pos hc, show test = false by simpa using mt htest.mp (not_not.mpr hc)]
    rfl
  · rw [if_neg hc, htest.mpr hc, Bool.true_and, h hc]

lemma isValidSignatureEncodingAt_eq (sig : Bytes) :
    isValidSignatureEncodingAt sig = .ok (isValidSignatureEncoding sig) := by
  unfold isValidSignatureEncodingAt isValidSignatureEncoding
  by_cases hmin : sig.length < 9
  · rw [if_pos hmin]
    simp [not_le.mpr hmin]
  by_cases hmax : 73 < sig.length
  · rw [if_neg hmin, if_pos hmax]
    simp [not_le.mpr hmax]
  rw [if_neg hmin, if_neg hmax, inputAt_of_lt (by omega), ok_bind]
  rw [decide_eq_true (not_lt.mp hmin), decide_eq_true (not_lt.mp hmax)]
  simp only [Bool.and_assoc, Bool.true_and]
  apply test_eq (by simp)
  intro htag
  rw [inputAt_of_lt (by omega), ok_bind]
  apply test_eq (by simp)
  intro hlen
  rw [inputAt_of_lt (by omega), ok_bind]
  apply test_eq (by simp)
  intro hR
  rw [inputAt_of_lt (by omega), ok_bind]
  apply test_eq (by simp)
  intro hsize
  rw [inputAt_of_lt (by omega), ok_bind]
  apply test_eq (by simp)
  intro _
  rw [isPositiveIntegerAt_eq (by omega), ok_bind]
  apply test_eq (by simp)
  intro _
  rw [inputAt_of_lt (by omega), ok_bind]
  apply test_eq (by simp)
  intro _
  exact isPositiveIntegerAt_eq (by omega)

end Reads

section Strict

def strictSignature (contentR contentS : Bytes) (hashType : UInt8) : Bytes :=
  0x30 :: UInt8.ofNat (contentR.length + contentS.length + 4) :: 0x02 :: UInt8.ofNat contentR.length ::
    (contentR ++ 0x02 :: UInt8.ofNat contentS.length :: (contentS ++ [hashType]))

def derSignature (r s : ℕ) : Bytes := derSequence (derInteger r ++ derInteger s)

lemma length_strictSignature (contentR contentS : Bytes) (hashType : UInt8) :
    (strictSignature contentR contentS hashType).length = contentR.length + contentS.length + 7 := by
  simp [strictSignature]
  omega

lemma derLength_short {n : ℕ} (h : n < 128) : derLength n = [UInt8.ofNat n] := if_pos h

lemma derSignature_append_of_length {r s : ℕ} {hashType : UInt8}
    (h : (derContent r).length + (derContent s).length + 7 ≤ 73) :
    derSignature r s ++ [hashType] = strictSignature (derContent r) (derContent s) hashType := by
  have hbody : ((0x02 : UInt8) :: ([UInt8.ofNat (derContent r).length] ++ derContent r) ++
      0x02 :: ([UInt8.ofNat (derContent s).length] ++ derContent s)).length =
        (derContent r).length + (derContent s).length + 4 := by
    simp
    omega
  rw [derSignature, derSequence, derInteger, derInteger, derLength_short (n := (derContent r).length) (by omega),
    derLength_short (n := (derContent s).length) (by omega), hbody, derLength_short (by omega), strictSignature]
  simp only [cons_append, append_assoc, nil_append]

lemma derSignature_append {r s : ℕ} {hashType : UInt8} (h : (derSignature r s ++ [hashType]).length ≤ 73) :
    derSignature r s ++ [hashType] = strictSignature (derContent r) (derContent s) hashType := by
  have hlength : ∀ n, 0 < (derLength n).length := by
    intro n
    unfold derLength
    split_ifs <;> exact succ_pos _
  have hr := hlength (derContent r).length
  have hs := hlength (derContent s).length
  apply derSignature_append_of_length
  simp only [derSignature, derSequence, derInteger, length_append, length_cons, length_nil] at h
  have hbody := hlength ((derLength (derContent r).length).length + (derContent r).length + 1 +
    ((derLength (derContent s).length).length + (derContent s).length + 1))
  omega

lemma getD_middle (front rest : Bytes) (b : UInt8) {i : ℕ} (hi : i = front.length) :
    (front ++ b :: rest).getD i 0 = b := by
  simp [hi]

lemma isPositiveInteger_slice (front content rest : Bytes) {i : ℕ} (hi : i = front.length) :
    isPositiveInteger (front ++ (content ++ rest)) i content.length = isPositiveInteger content 0 content.length := by
  subst hi
  match content with
  | [] => rfl
  | [b] => simp [isPositiveInteger]
  | b :: c :: content => simp [isPositiveInteger]

lemma isPositiveInteger_iff (content : Bytes) :
    isPositiveInteger content 0 content.length = true ↔ ∃ n, content = derContent n := by
  have hhead : isPositiveInteger content 0 content.length = true ↔
      ∃ b rest, content = b :: rest ∧ b.toNat < 128 ∧ (b = 0 → ∀ c ∈ rest.head?, 128 ≤ c.toNat) := by
    have hsign : ∀ b : UInt8, b &&& 0x80 = 0 ↔ b.toNat < 128 := by
      intro b
      rw [← not_le, ← and_sign_ne_zero_iff, ne_eq, not_not]
    match content with
    | [] => simp [isPositiveInteger]
    | [b] => simp [isPositiveInteger, hsign]
    | b :: c :: content =>
      have hlen : 1 < (b :: c :: content).length := by simp
      simp only [isPositiveInteger, decide_eq_true hlen, bne_iff_ne.mpr (ne_zero_of_lt hlen), getD_cons_zero,
        getD_cons_succ, zero_add, Bool.true_and, Bool.not_and, Bool.and_eq_true, Bool.or_eq_true,
        Bool.not_eq_true', beq_eq_false_iff_ne, beq_iff_eq, ne_eq, hsign, not_lt, List.cons.injEq]
      constructor
      · rintro ⟨hb, hnext⟩
        refine ⟨b, c :: content, ⟨rfl, rfl⟩, hb, ?_⟩
        rintro hzero _ ⟨⟩
        exact hnext.resolve_left (not_not.mpr hzero)
      · rintro ⟨b, rest, ⟨rfl, rfl⟩, hb, hnext⟩
        exact ⟨hb, (em (b = 0)).symm.imp_right fun hzero => hnext hzero c rfl⟩
  rw [hhead]
  constructor
  · rintro ⟨b, rest, rfl, hb, hzero⟩
    exact ⟨_, (derContent_beValue hb hzero).symm⟩
  · rintro ⟨n, rfl⟩
    obtain ⟨b, rest, hcontent, -⟩ := nonNegative_derContent n
    exact ⟨b, rest, hcontent, derContent_head hcontent⟩

lemma exists_frame {sig : Bytes} (hmin : 9 ≤ sig.length)
    (hsize : (sig.getD 3 0).toNat + (sig.getD (5 + (sig.getD 3 0).toNat) 0).toNat + 7 = sig.length) :
    ∃ a₀ a₁ a₂ a₃ contentR b₀ b₁ contentS hashType,
      sig = [a₀, a₁, a₂, a₃] ++ (contentR ++ b₀ :: b₁ :: (contentS ++ [hashType])) ∧
      a₃.toNat = contentR.length ∧ b₁.toNat = contentS.length := by
  match sig with
  | a₀ :: a₁ :: a₂ :: a₃ :: rest =>
    have ha₃ : (a₀ :: a₁ :: a₂ :: a₃ :: rest).getD 3 0 = a₃ := rfl
    rw [ha₃] at hsize
    simp only [length_cons] at hsize
    obtain ⟨contentR, tail, rfl, hR⟩ : ∃ contentR tail, rest = contentR ++ tail ∧ contentR.length = a₃.toNat :=
      ⟨rest.take a₃.toNat, rest.drop a₃.toNat, (take_append_drop _ _).symm, by simp; omega⟩
    rw [length_append] at hsize
    match tail, hsize with
    | [], hsize => simp at hsize; omega
    | [_], hsize => simp at hsize; omega
    | b₀ :: b₁ :: tail, hsize =>
      have hb₁ : (a₀ :: a₁ :: a₂ :: a₃ :: (contentR ++ b₀ :: b₁ :: tail)).getD (5 + a₃.toNat) 0 = b₁ := by
        have hmiddle := getD_middle (a₀ :: a₁ :: a₂ :: a₃ :: (contentR ++ [b₀])) tail b₁ (i := 5 + a₃.toNat)
          (by simp; omega)
        simpa using hmiddle
      rw [hb₁] at hsize
      simp only [length_cons] at hsize
      have hne : tail ≠ [] := by
        rintro rfl
        rw [length_nil] at hsize
        omega
      refine ⟨a₀, a₁, a₂, a₃, contentR, b₀, b₁, tail.dropLast, tail.getLast hne, ?_, hR.symm, ?_⟩
      · rw [dropLast_append_getLast]
        rfl
      · rw [length_dropLast]
        omega

section Frame

variable {a₀ a₁ a₂ a₃ b₀ b₁ hashType : UInt8} {contentR contentS : Bytes}

lemma isValidSignatureEncoding_frame (ha₃ : a₃.toNat = contentR.length) (hb₁ : b₁.toNat = contentS.length) :
    isValidSignatureEncoding ([a₀, a₁, a₂, a₃] ++ (contentR ++ b₀ :: b₁ :: (contentS ++ [hashType]))) = true ↔
      contentR.length + contentS.length + 7 ≤ 73 ∧ a₀ = 0x30 ∧
      a₁.toNat = contentR.length + contentS.length + 4 ∧ a₂ = 0x02 ∧
      isPositiveInteger contentR 0 contentR.length = true ∧ b₀ = 0x02 ∧
      isPositiveInteger contentS 0 contentS.length = true := by
  have hlenS : ([a₀, a₁, a₂, a₃] ++ (contentR ++ b₀ :: b₁ :: (contentS ++ [hashType]))).getD
      (5 + contentR.length) 0 = b₁ := by
    have hmiddle := getD_middle ([a₀, a₁, a₂, a₃] ++ (contentR ++ [b₀])) (contentS ++ [hashType]) b₁
      (show 5 + contentR.length = _ by simp; omega)
    simpa using hmiddle
  have htagS : ([a₀, a₁, a₂, a₃] ++ (contentR ++ b₀ :: b₁ :: (contentS ++ [hashType]))).getD
      (contentR.length + 4) 0 = b₀ := by
    simp
  have hR := isPositiveInteger_slice [a₀, a₁, a₂, a₃] contentR (b₀ :: b₁ :: (contentS ++ [hashType]))
    (show 4 = _ from rfl)
  have hS := isPositiveInteger_slice ([a₀, a₁, a₂, a₃] ++ (contentR ++ [b₀, b₁])) contentS [hashType]
    (show contentR.length + 6 = _ by simp)
  have hassoc : [a₀, a₁, a₂, a₃] ++ (contentR ++ [b₀, b₁]) ++ (contentS ++ [hashType]) =
      [a₀, a₁, a₂, a₃] ++ (contentR ++ b₀ :: b₁ :: (contentS ++ [hashType])) := by simp
  rw [hassoc] at hS
  have hlength : ([a₀, a₁, a₂, a₃] ++ (contentR ++ b₀ :: b₁ :: (contentS ++ [hashType]))).length =
      contentR.length + contentS.length + 7 := by
    simp
    omega
  have hnonempty : ∀ content, isPositiveInteger content 0 content.length = true → 0 < content.length := by
    intro content hcontent
    obtain ⟨n, rfl⟩ := (isPositiveInteger_iff content).mp hcontent
    obtain ⟨b, rest, hb, -⟩ := nonNegative_derContent n
    rw [hb]
    exact succ_pos _
  have hfirst : ([a₀, a₁, a₂, a₃] ++ (contentR ++ b₀ :: b₁ :: (contentS ++ [hashType]))).getD 0 0 = a₀ := rfl
  have hsecond : ([a₀, a₁, a₂, a₃] ++ (contentR ++ b₀ :: b₁ :: (contentS ++ [hashType]))).getD 1 0 = a₁ := rfl
  have hthird : ([a₀, a₁, a₂, a₃] ++ (contentR ++ b₀ :: b₁ :: (contentS ++ [hashType]))).getD 2 0 = a₂ := rfl
  have hfourth : ([a₀, a₁, a₂, a₃] ++ (contentR ++ b₀ :: b₁ :: (contentS ++ [hashType]))).getD 3 0 = a₃ := rfl
  unfold isValidSignatureEncoding
  rw [hfirst, hsecond, hthird, hfourth, ha₃]
  dsimp only
  rw [hlenS, hb₁, htagS, hR, hS, hlength]
  simp only [Bool.and_eq_true, decide_eq_true_eq, beq_iff_eq]
  constructor
  · rintro ⟨⟨⟨⟨⟨⟨⟨⟨⟨-, hmax⟩, htag⟩, hlen⟩, -⟩, -⟩, htagR⟩, hposR⟩, htagS⟩, hposS⟩
    exact ⟨hmax, htag, by omega, htagR, hposR, htagS, hposS⟩
  · rintro ⟨hmax, htag, hlen, htagR, hposR, htagS, hposS⟩
    have hr := hnonempty contentR hposR
    have hs := hnonempty contentS hposS
    refine ⟨⟨⟨⟨⟨⟨⟨⟨⟨?_, hmax⟩, htag⟩, ?_⟩, ?_⟩, trivial⟩, htagR⟩, hposR⟩, htagS⟩, hposS⟩ <;> omega

end Frame

lemma isValidSignatureEncoding_iff (sig : Bytes) : isValidSignatureEncoding sig = true ↔
    ∃ r s hashType, sig = derSignature r s ++ [hashType] ∧ sig.length ≤ 73 := by
  constructor
  · intro h
    have htests := h
    simp only [isValidSignatureEncoding, Bool.and_eq_true, decide_eq_true_eq, beq_iff_eq] at htests
    obtain ⟨⟨⟨⟨⟨⟨⟨⟨⟨hmin, hmax⟩, -⟩, -⟩, -⟩, hsize⟩, -⟩, -⟩, -⟩, -⟩ := htests
    obtain ⟨a₀, a₁, a₂, a₃, contentR, b₀, b₁, contentS, hashType, rfl, ha₃, hb₁⟩ := exists_frame hmin hsize
    obtain ⟨hlength, rfl, ha₁, rfl, hR, rfl, hS⟩ := (isValidSignatureEncoding_frame ha₃ hb₁).mp h
    obtain ⟨r, rfl⟩ := (isPositiveInteger_iff contentR).mp hR
    obtain ⟨s, rfl⟩ := (isPositiveInteger_iff contentS).mp hS
    have hstrict : strictSignature (derContent r) (derContent s) hashType =
        [0x30, a₁, 0x02, a₃] ++ (derContent r ++ 0x02 :: b₁ :: (derContent s ++ [hashType])) := by
      rw [strictSignature, ← ha₁, ← ha₃, ← hb₁, UInt8.ofNat_toNat, UInt8.ofNat_toNat, UInt8.ofNat_toNat]
      rfl
    refine ⟨r, s, hashType, ?_, hmax⟩
    rw [← hstrict, derSignature_append_of_length hlength]
  · rintro ⟨r, s, hashType, rfl, hmax⟩
    have heq := derSignature_append hmax
    rw [heq, length_strictSignature] at hmax
    have hsmall : ∀ n, n < 256 → (UInt8.ofNat n).toNat = n := by
      intro n hn
      rw [UInt8.toNat_ofNat']
      omega
    rw [heq]
    apply (isValidSignatureEncoding_frame (hsmall _ (by omega)) (hsmall _ (by omega))).mpr
    exact ⟨hmax, rfl, hsmall _ (by omega), rfl, (isPositiveInteger_iff _).mpr ⟨r, rfl⟩, rfl,
      (isPositiveInteger_iff _).mpr ⟨s, rfl⟩⟩

end Strict

section Accepted

lemma inputAt_middle (front rest : Bytes) (b : UInt8) : inputAt (front ++ b :: rest) front.length = .ok b := by
  simp [inputAt]

lemma tagByte_middle (front rest : Bytes) (tag : UInt8) :
    tagByte (front ++ tag :: rest) tag front.length = .ok (front.length + 1) := by
  rw [tagByte, if_neg (by simp), inputAt_middle, ok_bind, if_neg (not_not.mpr rfl)]

lemma sequenceLength_middle (front rest : Bytes) {b : UInt8} (hb : b.toNat < 128) :
    sequenceLength (front ++ b :: rest) front.length = .ok (front.length + 1) := by
  rw [sequenceLength, if_neg (by simp), inputAt_middle, ok_bind,
    if_neg (fun h => absurd ((and_sign_ne_zero_iff b).mp h) (not_le.mpr hb))]

lemma integerLength_middle (front rest : Bytes) {b : UInt8} (hb : b.toNat < 128) :
    integerLength (front ++ b :: rest) front.length = .ok (b.toNat, front.length + 1) := by
  rw [integerLength, if_neg (by simp), inputAt_middle, ok_bind,
    if_neg (fun h => absurd ((and_sign_ne_zero_iff b).mp h) (not_le.mpr hb))]

lemma parseInteger_middle (front content rest : Bytes) {b : UInt8} (hb : b.toNat < 128) (hlen : b.toNat = content.length) :
    parseInteger (front ++ 0x02 :: b :: (content ++ rest)) front.length = .ok (front.length + 2, content.length) := by
  have hlength := integerLength_middle (front ++ [0x02]) (content ++ rest) hb
  rw [append_assoc, length_append] at hlength
  rw [parseInteger, tagByte_middle, ok_bind]
  have hlength : integerLength (front ++ 0x02 :: b :: (content ++ rest)) (front.length + 1) =
      .ok (b.toNat, front.length + 2) := hlength
  rw [hlength, ok_bind]
  dsimp only
  rw [remaining, if_neg (by simp), ok_bind, if_neg, hlen]
  simp [hlen]
  omega

lemma skipZeros_middle (front content rest : Bytes) :
    skipZeros (front ++ (content ++ rest)) content.length front.length =
      .ok ((content.dropWhile (· = 0)).length, front.length + (content.takeWhile (· = 0)).length) := by
  induction content generalizing front with
  | nil => rfl
  | cons b content ih =>
    rw [length_cons, skipZeros, cons_append, inputAt_middle, ok_bind]
    by_cases hb : b = 0
    · have hrest := ih (front ++ [b])
      rw [append_assoc, length_append] at hrest
      rw [if_pos hb]
      refine hrest.trans ?_
      simp [hb]
      omega
    · simp [hb]

lemma copyInteger_middle (front content rest : Bytes) :
    copyInteger (front ++ (content ++ rest)) front.length content.length =
      .ok (if 32 < (content.dropWhile (· = 0)).length then none
        else some (List.replicate (32 - (content.dropWhile (· = 0)).length) 0 ++ content.dropWhile (· = 0))) := by
  rw [copyInteger, skipZeros_middle, ok_bind]
  dsimp only
  have hsplit : front ++ (content ++ rest) =
      front ++ content.takeWhile (· = 0) ++ (content.dropWhile (· = 0) ++ rest) := by
    conv_lhs => rw [← takeWhile_append_dropWhile (p := (· = 0)) (l := content)]
    simp only [append_assoc]
  generalize content.takeWhile (· = 0) = zeros at hsplit ⊢
  generalize content.dropWhile (· = 0) = digits at hsplit ⊢
  by_cases hlong : 32 < digits.length
  · rw [if_pos hlong, if_pos hlong]
  · rw [if_neg hlong, if_neg hlong, hsplit, copyHalf, if_neg, if_neg hlong, ok_bind, ← length_append,
      drop_left, take_left]
    simp
    omega

lemma beValue_padded (k : ℕ) (digits : Bytes) : beValue (List.replicate k 0 ++ digits) = beValue digits := by
  rw [beValue, beValue, reverse_append, leValue_append, reverse_replicate, leValue_replicate_zero, mul_zero,
    add_zero]

def padded (n : ℕ) : Bytes := List.replicate (32 - (beDigits n).length) 0 ++ beDigits n

def halfOf (n : ℕ) : Option Bytes := if 32 < (beDigits n).length then none else some (padded n)

lemma copyInteger_derContent (front rest : Bytes) (n : ℕ) :
    copyInteger (front ++ (derContent n ++ rest)) front.length (derContent n).length = .ok (halfOf n) := by
  rw [copyInteger_middle, dropWhile_derContent]
  rfl

lemma length_padded {n : ℕ} (hn : (beDigits n).length ≤ 32) : (padded n).length = 32 := by
  simp [padded]
  omega

lemma scalarSetB32_padded (n : ℕ) : scalarSetB32 (padded n) =
    if SECP256K1_N ≤ n then (n - SECP256K1_N, true) else (n, false) := by
  rw [scalarSetB32, padded, beValue_padded, beValue_beDigits]

lemma ecdsaSignatureParseCompact_padded {r s : ℕ} (hr : (beDigits r).length ≤ 32) :
    ecdsaSignatureParseCompact (padded r ++ padded s) =
      if r < SECP256K1_N ∧ s < SECP256K1_N then (true, ⟨r, s⟩) else (false, ⟨0, 0⟩) := by
  have hsplit := length_padded hr
  have hleft : (padded r ++ padded s).take 32 = padded r := by rw [← hsplit, take_left]
  have hright : (padded r ++ padded s).drop 32 = padded s := by rw [← hsplit, drop_left]
  rw [ecdsaSignatureParseCompact, hleft, hright, scalarSetB32_padded, scalarSetB32_padded]
  by_cases hboth : r < SECP256K1_N ∧ s < SECP256K1_N
  · rw [if_pos hboth, if_neg (not_le.mpr hboth.1), if_neg (not_le.mpr hboth.2)]
    rfl
  · rw [if_neg hboth]
    by_cases hrN : r < SECP256K1_N
    · rw [if_neg (not_le.mpr hrN), if_pos (not_lt.mp (fun hsN => hboth ⟨hrN, hsN⟩))]
      rfl
    · rw [if_pos (not_lt.mp hrN)]
      rfl

lemma lt_order_of_length {n : ℕ} (hn : n < SECP256K1_N) : (beDigits n).length ≤ 32 :=
  length_beDigits_le_iff.mpr (hn.trans (by decide))

lemma loadSignature_halfOf (r s : ℕ) : loadSignature (halfOf r) (halfOf s) =
    if r < SECP256K1_N ∧ s < SECP256K1_N then ⟨r, s⟩ else ⟨0, 0⟩ := by
  have hzeros : (ecdsaSignatureParseCompact (List.replicate 64 0)).2 = ⟨0, 0⟩ := by decide +kernel
  have hlong : ∀ n, 32 < (beDigits n).length → ¬ n < SECP256K1_N :=
    fun n hn hlt => absurd (lt_order_of_length hlt) (not_le.mpr hn)
  unfold loadSignature halfOf
  rw [hzeros]
  by_cases hr : 32 < (beDigits r).length
  · have hnot : ¬ (r < SECP256K1_N ∧ s < SECP256K1_N) := fun h => hlong r hr h.1
    rw [if_pos hr, if_neg hnot]
    rfl
  · by_cases hs : 32 < (beDigits s).length
    · have hnot : ¬ (r < SECP256K1_N ∧ s < SECP256K1_N) := fun h => hlong s hs h.2
      rw [if_neg hr, if_pos hs, if_neg hnot]
      rfl
    · rw [if_neg hr, if_neg hs]
      dsimp only
      rw [ecdsaSignatureParseCompact_padded (not_lt.mp hr)]
      by_cases hboth : r < SECP256K1_N ∧ s < SECP256K1_N
      · rw [if_pos hboth, if_pos hboth]
        rfl
      · rw [if_neg hboth, if_neg hboth]
        rfl

lemma parseDerLax_strict {r s : ℕ} {hashType : UInt8} (h : (derContent r).length + (derContent s).length + 7 ≤ 73) :
    parseDerLax (strictSignature (derContent r) (derContent s) hashType).dropLast =
      .ok (if r < SECP256K1_N ∧ s < SECP256K1_N then ⟨r, s⟩ else ⟨0, 0⟩) := by
  have hsmall : ∀ n, n < 256 → (UInt8.ofNat n).toNat = n := by
    intro n hn
    rw [UInt8.toNat_ofNat']
    omega
  obtain ⟨total, htotal⟩ : ∃ b, b = UInt8.ofNat ((derContent r).length + (derContent s).length + 4) := ⟨_, rfl⟩
  obtain ⟨lenR, hlenR⟩ : ∃ b, b = UInt8.ofNat (derContent r).length := ⟨_, rfl⟩
  obtain ⟨lenS, hlenS⟩ : ∃ b, b = UInt8.ofNat (derContent s).length := ⟨_, rfl⟩
  have htotal' := hsmall _ (show (derContent r).length + (derContent s).length + 4 < 256 by omega)
  have hlenR' := hsmall _ (show (derContent r).length < 256 by omega)
  have hlenS' := hsmall _ (show (derContent s).length < 256 by omega)
  rw [← htotal] at htotal'
  rw [← hlenR] at hlenR'
  rw [← hlenS] at hlenS'
  have hinput : (strictSignature (derContent r) (derContent s) hashType).dropLast =
      0x30 :: total :: 0x02 :: lenR :: (derContent r ++ 0x02 :: lenS :: (derContent s ++ [])) := by
    have hlast : strictSignature (derContent r) (derContent s) hashType =
        0x30 :: total :: 0x02 :: lenR :: (derContent r ++ 0x02 :: lenS :: (derContent s ++ [])) ++ [hashType] := by
      rw [strictSignature, ← htotal, ← hlenR, ← hlenS]
      simp
    rw [hlast, dropLast_concat]
  rw [hinput]
  have htag := tagByte_middle [] (total :: 0x02 :: lenR :: (derContent r ++ 0x02 :: lenS :: (derContent s ++ []))) 0x30
  have hlength := sequenceLength_middle [0x30]
    (0x02 :: lenR :: (derContent r ++ 0x02 :: lenS :: (derContent s ++ []))) (show total.toNat < 128 by omega)
  have hR := parseInteger_middle [0x30, total] (derContent r) (0x02 :: lenS :: (derContent s ++ []))
    (show lenR.toNat < 128 by omega) hlenR'
  have hS := parseInteger_middle ([0x30, total, 0x02, lenR] ++ derContent r) (derContent s) []
    (show lenS.toNat < 128 by omega) hlenS'
  have hcopyR := copyInteger_derContent [0x30, total, 0x02, lenR] (0x02 :: lenS :: (derContent s ++ [])) r
  have hcopyS := copyInteger_derContent ([0x30, total, 0x02, lenR] ++ derContent r ++ [0x02, lenS]) [] s
  simp only [cons_append, nil_append, append_assoc, length_append, length_cons,
    length_nil, zero_add] at htag hlength hR hS hcopyR hcopyS ⊢
  rw [parseDerLax, htag, ok_bind, hlength, ok_bind, hR, ok_bind]
  dsimp only
  rw [show (derContent r).length + 1 + 1 + 1 + 1 = 1 + 1 + 2 + (derContent r).length by omega] at hS
  rw [show (derContent r).length + (1 + 1) + 1 + 1 + 1 + 1 = 1 + 1 + 2 + (derContent r).length + 2 by omega] at hcopyS
  rw [hS, ok_bind]
  dsimp only
  rw [hcopyR, ok_bind, hcopyS, ok_bind, loadSignature_halfOf]

end Accepted

section Agreement

/-- The strict parser accepts the DER encodings of two integers that are not negative, with a hash type and at
most 73 bytes; from such an encoding the lax parser reads the integers, or the zero signature if the library
does not accept them. No parser accesses anything outside its input or `tmpsig`. -/
theorem strict_lax_agree :
    (∀ sig, isValidSignatureEncodingAt sig = .ok (isValidSignatureEncoding sig)) ∧
    (∀ sig, isValidSignatureEncoding sig = true ↔
      ∃ r s hashType, sig = derSignature r s ++ [hashType] ∧ sig.length ≤ 73) ∧
    (∀ r s hashType, isValidSignatureEncoding (derSignature r s ++ [hashType]) = true →
      ecdsaSignatureParseDerLax (derSignature r s) =
        .ok (true, if r < SECP256K1_N ∧ s < SECP256K1_N then ⟨r, s⟩ else ⟨0, 0⟩)) ∧
    ∀ input, ∃ result, ecdsaSignatureParseDerLax input = .ok result := by
  refine ⟨isValidSignatureEncodingAt_eq, isValidSignatureEncoding_iff, ?_, ecdsaSignatureParseDerLax_returns⟩
  intro r s hashType hvalid
  obtain ⟨r', s', hashType', heq, hmax⟩ := (isValidSignatureEncoding_iff _).mp hvalid
  have hstrict := derSignature_append hmax
  have hlength := congrArg List.length hstrict
  rw [length_strictSignature] at hlength
  have hparse := @parseDerLax_strict r s hashType (hlength ▸ hmax)
  rw [← hstrict, dropLast_concat] at hparse
  rw [ecdsaSignatureParseDerLax, hparse]

end Agreement

end MutableBitcoin
