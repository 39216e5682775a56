import MutableBitcoin.CuckooCache
import MutableBitcoin.SignatureChecker

/-!
# The signature cache

`script/sigcache.cpp`. A signature that has been found valid is remembered by a hash, and a checker asks the cache
before it verifies. The checkers of a process share one cache.
-/

namespace MutableBitcoin
open Lib List

/-- Four bytes of an entry, which is random already, as a little-endian machine copies them. -/
def signatureCacheHasher (hash_select : Fin 8) (key : Uint256) : BitVec 32 :=
  BitVec.ofNat 32 (leValue ((key.data.drop (4 * hash_select)).take 4))

instance : Inhabited Uint256 := ⟨BaseBlob.null 32⟩

def MAX_MAX_SIG_CACHE_SIZE : ℤ := 16384

/-- `nMaxCacheSize` in bytes, from the option in MiB. -/
def nMaxCacheSize (maxsigcachesize : Int64) : ℕ :=
  (min (max 0 (maxsigcachesize.toInt.tdiv 2)) MAX_MAX_SIG_CACHE_SIZE).toNat * 2 ^ 20

lemma nMaxCacheSize_le (maxsigcachesize : Int64) : nMaxCacheSize maxsigcachesize ≤ 2 ^ 34 := by
  unfold nMaxCacheSize MAX_MAX_SIG_CACHE_SIZE
  omega

/-- The slots that `setup_bytes` makes, two at the least. -/
def signatureCacheSize (maxsigcachesize : Int64) : TableSize where
  val := max 2 (nMaxCacheSize maxsigcachesize / 32)
  two_le := le_max_left _ _
  lt := by have := nMaxCacheSize_le maxsigcachesize; omega

/-- A call of `CheckSig` on a `CachingTransactionSignatureChecker`. -/
structure CheckSigCall where
  txTo : CMutableTransaction
  nIn : ℕ
  amount : CAmount
  store : Bool
  txdata : PrecomputedTransactionData
  vchSigIn : Bytes
  vchPubKey : Bytes
  scriptCode : CScript
  sigversion : SigVersion

section SignatureCache

variable (sha256 : Bytes → Uint256) (pubKeyVerify : Bytes → Uint256 → Bytes → Bool) (nonce : Uint256)
  {size : TableSize}

/-- What `ComputeEntry` hashes. -/
def entryMessage (hash : Uint256) (vchSig pubkey : Bytes) : Bytes := nonce.data ++ hash.data ++ pubkey ++ vchSig

def computeEntry (hash : Uint256) (vchSig pubkey : Bytes) : Uint256 := sha256 (entryMessage nonce hash vchSig pubkey)

/-- `CachingTransactionSignatureChecker::VerifySignature`. -/
def verifySignature (signatureCache : Cache Uint256 size) (store : Bool) (vchSig pubkey : Bytes) (sighash : Uint256) :
    Except OutOfBounds (Bool × Cache Uint256 size) := do
  let entry := computeEntry sha256 nonce sighash vchSig pubkey
  let (signatureCache, found) ← signatureCache.contains signatureCacheHasher entry (!store)
  if found then return (true, signatureCache)
  else if !pubKeyVerify pubkey sighash vchSig then return (false, signatureCache)
  else if store then
    let (signatureCache, _) ← signatureCache.insert signatureCacheHasher entry
    return (true, signatureCache)
  else return (true, signatureCache)

namespace CheckSigCall

variable (call : CheckSigCall)

/-- The answer of a checker without a cache. -/
def answer : Option Bool :=
  checkSig sha256 pubKeyVerify call.txTo call.nIn call.amount call.txdata call.vchSigIn call.vchPubKey call.scriptCode
    call.sigversion

def sighash (nHashType : UInt8) : Option Uint256 :=
  signatureHash sha256 call.scriptCode call.txTo call.nIn (Int32.ofNat nHashType.toNat) call.amount call.sigversion
    (some call.txdata) 0

/-- `CheckSig`, with the `VerifySignature` of the class that has the cache. -/
def cachedAnswer (signatureCache : Cache Uint256 size) : Except OutOfBounds (Option Bool × Cache Uint256 size) :=
  if !pubKeyIsValid call.vchPubKey then .ok (some false, signatureCache)
  else
    match call.vchSigIn.getLast? with
    | none => .ok (some false, signatureCache)
    | some nHashType =>
      match call.sighash sha256 nHashType with
      | none => .ok (none, signatureCache)
      | some sighash => do
        let (verified, signatureCache) ←
          verifySignature sha256 pubKeyVerify nonce signatureCache call.store call.vchSigIn.dropLast call.vchPubKey sighash
        return (some verified, signatureCache)

/-- What the call hashes for the cache. -/
def Hashes (m : Bytes) : Prop :=
  pubKeyIsValid call.vchPubKey = true ∧ ∃ nHashType sighash, call.vchSigIn.getLast? = some nHashType ∧
    call.sighash sha256 nHashType = some sighash ∧
    m = entryMessage nonce sighash call.vchSigIn.dropLast call.vchPubKey

end CheckSigCall

/-- The answers to calls made one after the other. -/
def cachedAnswers (signatureCache : Cache Uint256 size) : List CheckSigCall → Except OutOfBounds (List (Option Bool))
  | [] => .ok []
  | call :: calls => do
    let (answer, signatureCache) ← call.cachedAnswer sha256 pubKeyVerify nonce signatureCache
    return answer :: (← cachedAnswers signatureCache calls)

/-- Two entries that coincide, or one that is the mark of a free slot. -/
def EntriesCollide (calls : List CheckSigCall) : Prop :=
  ∃ call ∈ calls, ∃ m, call.Hashes sha256 nonce m ∧
    (sha256 m = default ∨ ∃ call' ∈ calls, ∃ m', call'.Hashes sha256 nonce m' ∧ m ≠ m' ∧ sha256 m = sha256 m')

end SignatureCache

section Entries

variable {nonce hash hash' : Uint256} {vchSig vchSig' pubkey pubkey' : Bytes}

lemma length_of_pubKeyIsValid {chHeader : UInt8} {rest : Bytes} (h : pubKeyIsValid (chHeader :: rest) = true) :
    (chHeader :: rest).length = pubKeyLen chHeader := by
  rw [pubKeyIsValid, Bool.and_eq_true, beq_iff_eq] at h
  exact h.2.symm

/-- The first byte of a key says how long it is, so the signature begins at one place only. -/
lemma entryMessage_injective (h : pubKeyIsValid pubkey = true) (h' : pubKeyIsValid pubkey' = true)
    (heq : entryMessage nonce hash vchSig pubkey = entryMessage nonce hash' vchSig' pubkey') :
    hash = hash' ∧ pubkey = pubkey' ∧ vchSig = vchSig' := by
  rw [entryMessage, entryMessage, append_assoc, append_assoc, append_assoc, append_assoc] at heq
  have htail := append_cancel_left heq
  obtain ⟨hhash, hkeys⟩ := append_inj htail (hash.length_data.trans hash'.length_data.symm)
  have hkey : pubkey.length = pubkey'.length := by
    cases pubkey with
    | nil => cases h
    | cons chHeader rest =>
      cases pubkey' with
      | nil => cases h'
      | cons chHeader' rest' =>
        have hheader : chHeader = chHeader' := (List.cons.inj hkeys).1
        rw [length_of_pubKeyIsValid h, length_of_pubKeyIsValid h', hheader]
  exact ⟨BaseBlob.ext hhash, append_inj hkeys hkey⟩

end Entries

section Runs

variable {sha256 : Bytes → Uint256} {pubKeyVerify : Bytes → Uint256 → Bytes → Bool} {nonce : Uint256}
  {size : TableSize} {signatureCache : Cache Uint256 size} {calls : List CheckSigCall}
open Cache CuckooTable

/-- Every entry of the cache belongs to a valid signature that some call has asked for. -/
def Remembers (sha256 : Bytes → Uint256) (pubKeyVerify : Bytes → Uint256 → Bytes → Bool) (nonce : Uint256)
    (calls : List CheckSigCall) (signatureCache : Cache Uint256 size) : Prop :=
  ∀ entry ∈ stored signatureCache.table, ∃ call ∈ calls, ∃ sighash vchSig pubkey,
    call.Hashes sha256 nonce (entryMessage nonce sighash vchSig pubkey) ∧ pubKeyIsValid pubkey = true ∧
    pubKeyVerify pubkey sighash vchSig = true ∧ entry = computeEntry sha256 nonce sighash vchSig pubkey

lemma exists_verifySignature (hno : ¬EntriesCollide sha256 nonce calls) {call : CheckSigCall} (hcall : call ∈ calls)
    (store : Bool) {vchSig pubkey : Bytes} {sighash : Uint256} (hvalid : pubKeyIsValid pubkey = true)
    (hashes : call.Hashes sha256 nonce (entryMessage nonce sighash vchSig pubkey))
    (hsound : Sound signatureCacheHasher signatureCache)
    (hremembers : Remembers sha256 pubKeyVerify nonce calls signatureCache) :
    ∃ signatureCache' : Cache Uint256 size,
      verifySignature sha256 pubKeyVerify nonce signatureCache store vchSig pubkey sighash =
        .ok (pubKeyVerify pubkey sighash vchSig, signatureCache') ∧
      Sound signatureCacheHasher signatureCache' ∧ Remembers sha256 pubKeyVerify nonce calls signatureCache' := by
  have hne : computeEntry sha256 nonce sighash vchSig pubkey ≠ default :=
    fun hnull => hno ⟨call, hcall, _, hashes, .inl hnull⟩
  obtain ⟨asked, hcontains, hasked, htable⟩ :=
    hsound.exists_contains (computeEntry sha256 nonce sighash vchSig pubkey) (!store)
  have hkept : Remembers sha256 pubKeyVerify nonce calls asked := by
    rw [Remembers, htable]
    exact hremembers
  rw [verifySignature, hcontains, ok_bind]
  dsimp only
  cases hfound : (signatureCache.findSlot signatureCacheHasher (computeEntry sha256 nonce sighash vchSig pubkey)).isSome with
  | true =>
    -- the entry stands for another signature only if the two messages collide
    obtain ⟨other, hother, hash', vchSig', pubkey', hashes', hvalid', hverify, heq⟩ :=
      hremembers _ ((hsound.findSlot_isSome_iff hne).mp hfound)
    have hsame : entryMessage nonce sighash vchSig pubkey = entryMessage nonce hash' vchSig' pubkey' := by
      by_contra hdiff
      exact hno ⟨call, hcall, _, hashes, .inr ⟨other, hother, _, hashes', hdiff, heq⟩⟩
    obtain ⟨rfl, rfl, rfl⟩ := entryMessage_injective hvalid hvalid' hsame
    exact ⟨asked, by rw [if_pos rfl, hverify]; rfl, hasked, hkept⟩
  | false =>
    rw [if_neg (by decide)]
    cases hverify : pubKeyVerify pubkey sighash vchSig with
    | false => exact ⟨asked, by rw [if_pos (by decide)]; rfl, hasked, hkept⟩
    | true =>
      rw [if_neg (by decide)]
      cases store with
      | false => exact ⟨asked, by rw [if_neg (by decide)]; rfl, hasked, hkept⟩
      | true =>
        obtain ⟨aged, inserted, probed, -, hages, hinsert, hsound', hchange⟩ := hasked.exists_insert hne
        refine ⟨inserted, by rw [if_pos rfl, hinsert]; rfl, hsound', fun entry hentry => ?_⟩
        have hsub := hchange.subset hentry
        rw [hages.table] at hsub
        obtain rfl | hold := hsub
        · exact ⟨call, hcall, sighash, vchSig, pubkey, hashes, hvalid, hverify, rfl⟩
        · exact hkept entry hold

lemma exists_cachedAnswer (hno : ¬EntriesCollide sha256 nonce calls) {call : CheckSigCall} (hcall : call ∈ calls)
    (hsound : Sound signatureCacheHasher signatureCache)
    (hremembers : Remembers sha256 pubKeyVerify nonce calls signatureCache) :
    ∃ signatureCache' : Cache Uint256 size,
      call.cachedAnswer sha256 pubKeyVerify nonce signatureCache =
        .ok (call.answer sha256 pubKeyVerify, signatureCache') ∧
      Sound signatureCacheHasher signatureCache' ∧ Remembers sha256 pubKeyVerify nonce calls signatureCache' := by
  unfold CheckSigCall.cachedAnswer CheckSigCall.answer checkSig
  cases hvalid : pubKeyIsValid call.vchPubKey with
  | false => exact ⟨signatureCache, rfl, hsound, hremembers⟩
  | true =>
    rw [if_neg (by decide), if_neg (by decide)]
    cases hlast : call.vchSigIn.getLast? with
    | none => exact ⟨signatureCache, rfl, hsound, hremembers⟩
    | some nHashType =>
      dsimp only
      change ∃ signatureCache', _ = Except.ok ((call.sighash sha256 nHashType).bind _, signatureCache') ∧ _
      cases hsighash : call.sighash sha256 nHashType with
      | none => exact ⟨signatureCache, rfl, hsound, hremembers⟩
      | some sighash =>
        obtain ⟨signatureCache', hverify, hafter⟩ := exists_verifySignature hno hcall call.store hvalid
          ⟨hvalid, nHashType, sighash, hlast, hsighash, rfl⟩ hsound hremembers
        exact ⟨signatureCache', by dsimp only; rw [hverify]; rfl, hafter⟩

lemma cachedAnswers_eq (hno : ¬EntriesCollide sha256 nonce calls) {rest : List CheckSigCall} (hrest : rest ⊆ calls)
    (hsound : Sound signatureCacheHasher signatureCache)
    (hremembers : Remembers sha256 pubKeyVerify nonce calls signatureCache) :
    cachedAnswers sha256 pubKeyVerify nonce signatureCache rest = .ok (rest.map (·.answer sha256 pubKeyVerify)) := by
  induction rest generalizing signatureCache with
  | nil => rfl
  | cons call rest ih =>
    obtain ⟨hcall, hrest⟩ := cons_subset.mp hrest
    obtain ⟨signatureCache', hanswer, hsound', hremembers'⟩ := exists_cachedAnswer hno hcall hsound hremembers
    rw [cachedAnswers, hanswer, ok_bind]
    dsimp only
    rw [ih hrest hsound' hremembers']
    rfl

/-- The cache of any configured size changes no answer, unless two messages of the run collide, or one of them and the
mark of a free slot. Different entries with valid keys have different messages. -/
theorem cachedAnswers_transparent (sha256 : Bytes → Uint256) (pubKeyVerify : Bytes → Uint256 → Bytes → Bool)
    (nonce : Uint256) (maxsigcachesize : Int64) (depth_limit : ℕ) (calls : List CheckSigCall) :
    (cachedAnswers sha256 pubKeyVerify nonce (setup (signatureCacheSize maxsigcachesize) depth_limit) calls =
        .ok (calls.map (·.answer sha256 pubKeyVerify)) ∨
      EntriesCollide sha256 nonce calls) ∧
    ∀ hash pubkey vchSig hash' pubkey' vchSig', pubKeyIsValid pubkey = true → pubKeyIsValid pubkey' = true →
      (hash, pubkey, vchSig) ≠ (hash', pubkey', vchSig') →
      entryMessage nonce hash vchSig pubkey ≠ entryMessage nonce hash' vchSig' pubkey' := by
  refine ⟨?_, fun hash pubkey vchSig hash' pubkey' vchSig' hvalid hvalid' hne hsame => hne ?_⟩
  case refine_2 =>
    obtain ⟨rfl, rfl, rfl⟩ := entryMessage_injective hvalid hvalid' hsame
    rfl
  have hsize : (signatureCacheSize maxsigcachesize).val + 7 < 2 ^ 32 := by
    have hle := nMaxCacheSize_le maxsigcachesize
    unfold signatureCacheSize
    dsimp only
    omega
  by_cases hcollide : EntriesCollide sha256 nonce calls
  · exact .inr hcollide
  · refine .inl (cachedAnswers_eq hcollide (List.Subset.refl calls) (sound_setup hsize depth_limit) ?_)
    rintro entry ⟨hentry, s, rfl⟩
    exact absurd rfl hentry

end Runs
end MutableBitcoin
