import MutableBitcoin.Base58RoundTrip
import MutableBitcoin.Standard

/-!
# Addresses

`CBase58Data` and `CBitcoinAddress` of `base58.cpp`. A text is an address of a destination exactly if it is the one
that the destination is shown as, but for white space.
-/

namespace MutableBitcoin
open Lib List

section Base58Check
variable (sha256 : Bytes → Uint256)

def base58Checksum (vch : Bytes) : Bytes := (hash256 sha256 vch).data.take 4

def encodeBase58Check (vchIn : Bytes) : Except Base58Failure Str :=
  encodeBase58 (vchIn ++ base58Checksum sha256 vchIn)

/-- `DecodeBase58Check`. -/
def decodeBase58Check (str : Str) : Except Base58Failure (Option Bytes) := do
  match ← decodeBase58 str with
  | none => return none
  | some vchRet =>
    if vchRet.length < 4 then return none
    else if vchRet.drop (vchRet.length - 4) ≠ base58Checksum sha256 (vchRet.take (vchRet.length - 4)) then return none
    else return some (vchRet.take (vchRet.length - 4))

end Base58Check

/-- A version and the data behind it. -/
structure CBase58Data where
  vchVersion : Bytes
  vchData : Bytes

/-- The version bytes of the chain parameters. -/
structure Base58Prefixes where
  PUBKEY_ADDRESS : UInt8
  SCRIPT_ADDRESS : UInt8
  ne : PUBKEY_ADDRESS ≠ SCRIPT_ADDRESS

namespace CBase58Data
variable (sha256 : Bytes → Uint256) (params : Base58Prefixes) (data : CBase58Data)

/-- The data that a text leaves, and whether it was taken. -/
def setString (str : Str) (nVersionBytes : ℕ) : Except Base58Failure (Bool × CBase58Data) := do
  match ← decodeBase58Check sha256 str with
  | none => return (false, ⟨[], []⟩)
  | some vchTemp =>
    if vchTemp.length < nVersionBytes then return (false, ⟨[], []⟩)
    else return (true, ⟨vchTemp.take nVersionBytes, vchTemp.drop nVersionBytes⟩)

def toString : Except Base58Failure Str := encodeBase58Check sha256 (data.vchVersion ++ data.vchData)

/-- The constructor of `CBitcoinAddress`, whose `Set` leaves the data empty without a destination. -/
def ofDestination : CTxDestination → CBase58Data
  | .keyID id => ⟨[params.PUBKEY_ADDRESS], id.data⟩
  | .scriptID id => ⟨[params.SCRIPT_ADDRESS], id.data⟩
  | .noDestination => ⟨[], []⟩

def isValid : Bool :=
  data.vchData.length == 20 &&
    (data.vchVersion == [params.PUBKEY_ADDRESS] || data.vchVersion == [params.SCRIPT_ADDRESS])

def get : CTxDestination :=
  if !data.isValid params then .noDestination
  else
    match uint160OfVector data.vchData with
    | none => .noDestination
    | some id =>
      if data.vchVersion = [params.PUBKEY_ADDRESS] then .keyID id
      else if data.vchVersion = [params.SCRIPT_ADDRESS] then .scriptID id
      else .noDestination

end CBase58Data

section Texts
variable {sha256 : Bytes → Uint256} {str core : Str} {vch : Bytes}

lemma nul_notMem_cStringOf (str : Str) : '\x00' ∉ CStringOf str := by
  intro h
  have hne := mem_takeWhile_imp h
  exact absurd rfl (of_decide_eq_true (p := '\x00' ≠ '\x00') hne)

lemma decodesBack_of_length (h : str.length < 2 ^ 30) : DecodesBack (CStringOf str) := by
  have hself : CStringOf (CStringOf str) = CStringOf str := cStringOf_eq_self (nul_notMem_cStringOf str)
  have hstr : (CStringOf str).length ≤ str.length := (List.takeWhile_prefix _).length_le
  have hspace : ((CStringOf str).dropWhile isspace).length ≤ (CStringOf str).length :=
    (dropWhile_suffix _).length_le
  have hones : onesPart (CStringOf str) ≤ ((CStringOf str).dropWhile isspace).length :=
    (List.takeWhile_prefix _).length_le
  have hafter : (afterOnes (CStringOf str)).length ≤ ((CStringOf str).dropWhile isspace).length :=
    (dropWhile_suffix _).length_le
  refine decodesBack_of_fits ⟨?_, fun _ => ⟨nul_notMem_cStringOf str, str.length + 1, by omega, ?_⟩⟩
  · rw [hself]
    exact bufferFits_of_length (by omega) (by omega)
  · rw [hself]
    have hnumber : (numberPart (afterOnes (CStringOf str))).length ≤ (afterOnes (CStringOf str)).length :=
      (List.takeWhile_prefix _).length_le
    exact (textValue_lt fun c hc => mem_of_mem_numberPart hc).trans_le (Nat.pow_le_pow_right (by decide) (by omega))

lemma encodeBase58_eq (h : encodeBase58 vch = .ok core) : core = encodedText vch := by
  by_cases hfits : EncodeFits vch
  · rw [encodeBase58_of_fits hfits, Except.ok.injEq] at h
    exact h.symm
  · obtain ⟨e, herror⟩ := encodeBase58_of_not_fits hfits
    cases h.symm.trans herror

lemma encodeBase58_injective {vch' : Bytes} (h : encodeBase58 vch = .ok core) (h' : encodeBase58 vch' = .ok core) :
    vch = vch' := by
  rw [← decodedBytes_encodedText vch, ← decodedBytes_encodedText vch', ← encodeBase58_eq h, ← encodeBase58_eq h']

lemma mem_of_mem_encodeBase58 (h : encodeBase58 vch = .ok core) {c : Char} (hc : c ∈ core) : c ∈ pszBase58 := by
  rw [encodeBase58_eq h, encodedText, mem_append] at hc
  obtain hc | hc := hc
  · rw [eq_of_mem_replicate hc]
    decide
  · exact mem_of_mem_numberText hc

/-- The text of the bytes, with white space around it. -/
def Surrounds (str core : Str) : Prop :=
  ∃ before after, str = before ++ core ++ after ∧ (∀ c ∈ before, isspace c) ∧ ∀ c ∈ after, isspace c

lemma decodeBase58_iff (h : str.length < 2 ^ 30) :
    decodeBase58 str = .ok (some vch) ↔ ∃ core, encodeBase58 vch = .ok core ∧ Surrounds (CStringOf str) core := by
  have hcstring : decodeBase58 (CStringOf str) = decodeBase58 str :=
    congrArg decodeCString (cStringOf_eq_self (nul_notMem_cStringOf str))
  have hback := decodesBack_of_length h
  constructor
  · intro hdecode
    by_cases htext : ∃ before core after, IsBase58Text (CStringOf str) before core after
    · obtain ⟨before, core, after, htext⟩ := htext
      obtain ⟨vch', hdecode', hencode⟩ := hback.accepts before core after htext
      rw [hcstring, hdecode, Except.ok.injEq, Option.some.injEq] at hdecode'
      exact ⟨core, hdecode' ▸ hencode, before, after, htext.eq, htext.before_space, htext.after_space⟩
    · rw [← hcstring, hback.rejects htext, Except.ok.injEq] at hdecode
      cases hdecode
  · rintro ⟨core, hencode, before, after, heq, hbefore, hafter⟩
    obtain ⟨vch', hdecode, hencode'⟩ :=
      hback.accepts before core after ⟨heq, hbefore, hafter, fun c hc => mem_of_mem_encodeBase58 hencode hc⟩
    rw [← hcstring, hdecode, encodeBase58_injective hencode hencode']

lemma length_base58Checksum (vch : Bytes) : (base58Checksum sha256 vch).length = 4 := by
  rw [base58Checksum, length_take, BaseBlob.length_data]
  rfl

lemma decodeBase58Check_iff (h : str.length < 2 ^ 30) :
    decodeBase58Check sha256 str = .ok (some vch) ↔
      ∃ core, encodeBase58Check sha256 vch = .ok core ∧ Surrounds (CStringOf str) core := by
  unfold encodeBase58Check
  rw [← decodeBase58_iff h]
  have hlength : (base58Checksum sha256 vch).length = 4 := length_base58Checksum vch
  constructor
  · intro hcheck
    rw [decodeBase58Check, bind_eq_ok_iff] at hcheck
    obtain ⟨decoded, hdecode, hcheck⟩ := hcheck
    cases decoded with
    | none => cases hcheck
    | some vchRet =>
      dsimp only at hcheck
      split_ifs at hcheck with hshort hsum
      · cases hcheck
      · cases hcheck
      · rw [hdecode, ← Option.some.inj (Except.ok.inj hcheck), ← not_not.mp hsum, take_append_drop]
  · intro hdecode
    have htotal : (vch ++ base58Checksum sha256 vch).length - 4 = vch.length := by
      rw [length_append, hlength, Nat.add_sub_cancel]
    rw [decodeBase58Check, hdecode, ok_bind]
    dsimp only
    rw [htotal, drop_left, take_left, if_neg (by rw [length_append]; omega), if_neg (not_not.mpr rfl)]
    rfl

end Texts

section Addresses
variable {sha256 : Bytes → Uint256} {params : Base58Prefixes} {dest : CTxDestination} {str : Str}

lemma uint160OfVector_data (id : Uint160) : uint160OfVector id.data = some id := dif_pos id.length_data

lemma get_eq_iff (hdest : dest ≠ .noDestination) (data : CBase58Data) :
    data.get params = dest ↔ data = CBase58Data.ofDestination params dest := by
  constructor
  · intro hget
    obtain ⟨vchVersion, vchData⟩ := data
    rw [CBase58Data.get] at hget
    cases hid : uint160OfVector vchData with
    | none =>
      simp only [hid, ite_self] at hget
      exact absurd hget.symm hdest
    | some id =>
      have hdata : vchData = id.data := by
        unfold uint160OfVector at hid
        split_ifs at hid with hlength
        exact congrArg BaseBlob.data (Option.some.inj hid)
      simp only [hid] at hget
      split_ifs at hget with hvalid hkey hscript
      · exact absurd hget.symm hdest
      · rw [← hget, hkey, hdata]
        rfl
      · rw [← hget, hscript, hdata]
        rfl
      · exact absurd hget.symm hdest
  · rintro rfl
    cases dest with
    | noDestination => exact absurd rfl hdest
    | keyID id =>
      simp [CBase58Data.ofDestination, CBase58Data.get, CBase58Data.isValid, uint160OfVector_data, id.length_data]
    | scriptID id =>
      have hne : params.SCRIPT_ADDRESS ≠ params.PUBKEY_ADDRESS := params.ne.symm
      simp [CBase58Data.ofDestination, CBase58Data.get, CBase58Data.isValid, uint160OfVector_data, id.length_data, hne]

/-- A string is read as an address of the destination exactly if it shows the destination, but for white space. -/
theorem address_text_iff (hdest : dest ≠ .noDestination) (hlength : str.length < 2 ^ 30) :
    (∃ address, CBase58Data.setString sha256 str 1 = .ok (true, address) ∧ address.get params = dest) ↔
      ∃ text, (CBase58Data.ofDestination params dest).toString sha256 = .ok text ∧ Surrounds (CStringOf str) text := by
  have hversion : ∃ version, (CBase58Data.ofDestination params dest).vchVersion = [version] := by
    cases dest with
    | noDestination => exact absurd rfl hdest
    | keyID id => exact ⟨_, rfl⟩
    | scriptID id => exact ⟨_, rfl⟩
  obtain ⟨version, hversion⟩ := hversion
  unfold CBase58Data.toString
  rw [← decodeBase58Check_iff hlength, hversion]
  constructor
  · rintro ⟨address, hset, hget⟩
    obtain rfl := (get_eq_iff hdest _).mp hget
    rw [CBase58Data.setString, bind_eq_ok_iff] at hset
    obtain ⟨decoded, hdecode, hset⟩ := hset
    cases decoded with
    | none => cases hset
    | some vchTemp =>
      dsimp only at hset
      split_ifs at hset with hshort
      · cases hset
      · have hparts : CBase58Data.mk (vchTemp.take 1) (vchTemp.drop 1) = CBase58Data.ofDestination params dest :=
          congrArg Prod.snd (Except.ok.inj hset)
        rw [hdecode, ← hversion, ← hparts, take_append_drop]
  · intro hdecode
    refine ⟨CBase58Data.ofDestination params dest, ?_, (get_eq_iff hdest _).mpr rfl⟩
    rw [CBase58Data.setString, hdecode, ok_bind]
    dsimp only
    rw [if_neg (by simp), singleton_append, take_succ_cons, take_zero, drop_succ_cons, drop_zero,
      ← hversion]
    rfl

/-- The address of the hash of zeros, with white space around it. -/
theorem address_text_zero :
    ∃ address,
      CBase58Data.setString cSHA256 ([' '] ++ "1111111111111111111114oLvT2".toList ++ ['\n']) 1 = .ok (true, address) ∧
      address.get ⟨0, 5, by decide⟩ = .keyID (BaseBlob.null 20) :=
  (address_text_iff (by decide) (by decide)).mpr
    ⟨"1111111111111111111114oLvT2".toList, by decide +kernel, [' '], ['\n'], by decide,
      all_eq_true.mp (by decide), all_eq_true.mp (by decide)⟩

end Addresses
end MutableBitcoin
