import MutableBitcoin.Interpreter
import MutableBitcoin.Lib.OrderedMatching

/-!
# What `OP_CHECKMULTISIG` accepts

The loop over the keys gives each signature the first key left that accepts it, from the top of the
stack down.
-/

namespace MutableBitcoin
open Lib List

/-- The elements of `l` lie in `stack` one below the other, from position `i` from the top. -/
def ReadsFrom (stack : List Bytes) (i : ℕ) (l : List Bytes) : Prop :=
  ∃ below above, stack = below ++ l.reverse ++ above ∧ above.length + 1 = i

namespace ReadsFrom

variable {stack l : List Bytes} {i : ℕ} {vch : Bytes}

lemma tail (h : ReadsFrom stack i (vch :: l)) : ReadsFrom stack (i + 1) l := by
  obtain ⟨below, above, rfl, rfl⟩ := h
  exact ⟨below, vch :: above, by simp, by simp⟩

lemma stacktop_eq {s : EvalState} (h : ReadsFrom s.stack i (vch :: l)) :
    stacktop i s = .ok vch s := by
  obtain ⟨below, above, hstack, rfl⟩ := h
  have hle : above.length + 1 ≤ s.stack.length := by
    rw [hstack]
    simp
    omega
  have hget : s.stack[s.stack.length - (above.length + 1)]? = some vch := by
    have hlen : s.stack.length - (above.length + 1) = (below ++ l.reverse).length := by
      rw [hstack]
      simp
      omega
    rw [hlen, hstack, reverse_cons]
    simp
  simp only [stacktop, topOf, if_pos hle, hget]
  rfl

end ReadsFrom

section Loop

variable {crypto : ScriptCrypto} {flags : UInt32} {checker : SignatureChecker}
  {sigversion : SigVersion} {scriptCode : CScript}

/-- `checker.CheckSig` accepts a signature for a key. -/
def CheckSigAccepts (checker : SignatureChecker) (sigversion : SigVersion) (scriptCode : CScript)
    (vchSig vchPubKey : Bytes) : Prop :=
  checker.checkSig vchSig vchPubKey scriptCode sigversion = some true

lemma checkEncodings_eq_ok {vchSig vchPubKey : Bytes} (s : EvalState)
    (hsig : checkSignatureEncoding crypto flags vchSig = .ok ())
    (hkey : checkPubKeyEncoding flags sigversion vchPubKey = .ok ()) :
    checkEncodings crypto flags sigversion vchSig vchPubKey s = .ok () s :=
  run_bind_eq_ok_iff.mpr ⟨(), s, by rw [hsig]; rfl, by rw [hkey]; rfl⟩

lemma multisigLoop_succ (nKeysCount nSigsCount : ℕ) (m : Metered EvalState) {ikey isig : ℕ}
    {vchSig vchPubKey : Bytes} {fOk : Bool} (hsigs : nSigsCount ≠ 0)
    (hstackSig : stacktop isig m.state = .ok vchSig m.state)
    (hstackKey : stacktop ikey m.state = .ok vchPubKey m.state)
    (hsig : checkSignatureEncoding crypto flags vchSig = .ok ())
    (hkey : checkPubKeyEncoding flags sigversion vchPubKey = .ok ())
    (hcheck : checker.checkSig vchSig vchPubKey scriptCode sigversion = some fOk) :
    multisigLoop crypto flags checker sigversion scriptCode (nKeysCount + 1) ikey nSigsCount isig m =
      if nKeysCount < (if fOk then nSigsCount - 1 else nSigsCount) then
        .ok false ⟨m.state, m.spent + 1⟩
      else multisigLoop crypto flags checker sigversion scriptCode nKeysCount (ikey + 1)
        (if fOk then nSigsCount - 1 else nSigsCount) (if fOk then isig + 1 else isig)
        ⟨m.state, m.spent + 1⟩ := by
  have hcall : callCheckSig checker sigversion vchSig vchPubKey scriptCode m =
      .ok fOk ⟨m.state, m.spent + 1⟩ := by
    have hcharge : (charge : Audit Unit) m = .ok () ⟨m.state, m.spent + 1⟩ := rfl
    rw [callCheckSig, run_bind_of_ok hcharge, hcheck]
    rfl
  rw [multisigLoop, if_neg hsigs, run_bind_of_ok (metered_of_ok hstackSig),
    run_bind_of_ok (metered_of_ok hstackKey),
    run_bind_of_ok (metered_of_ok (checkEncodings_eq_ok m.state hsig hkey)), run_bind_of_ok hcall]
  exact apply_ite (fun x : Audit Bool => x ⟨m.state, m.spent + 1⟩) _ _ _

lemma multisigLoop_eq_ok {vchSigs vchPubKeys : List Bytes}
    (hsigs : ∀ vchSig ∈ vchSigs, checkSignatureEncoding crypto flags vchSig = .ok ())
    (hkeys : ∀ vchPubKey ∈ vchPubKeys, checkPubKeyEncoding flags sigversion vchPubKey = .ok ())
    (hcheck : ∀ vchSig ∈ vchSigs, ∀ vchPubKey ∈ vchPubKeys,
      checker.checkSig vchSig vchPubKey scriptCode sigversion ≠ none)
    (ikey isig : ℕ) (m : Metered EvalState) (hle : vchSigs.length ≤ vchPubKeys.length)
    (hreadSigs : ReadsFrom m.state.stack isig vchSigs)
    (hreadKeys : ReadsFrom m.state.stack ikey vchPubKeys) :
    ∃ fSuccess m', multisigLoop crypto flags checker sigversion scriptCode vchPubKeys.length ikey
        vchSigs.length isig m = .ok fSuccess m' ∧ m'.state = m.state ∧
      (fSuccess = true ↔
        List.SublistForall₂ (CheckSigAccepts checker sigversion scriptCode) vchSigs vchPubKeys) := by
  induction vchPubKeys generalizing vchSigs ikey isig m with
  | nil =>
    obtain rfl : vchSigs = [] := eq_nil_of_length_eq_zero (Nat.le_zero.mp hle)
    exact ⟨true, m, rfl, rfl, iff_of_true rfl .nil⟩
  | cons vchPubKey vchPubKeys ih =>
    cases vchSigs with
    | nil => exact ⟨true, m, rfl, rfl, iff_of_true rfl .nil⟩
    | cons vchSig vchSigs =>
      obtain ⟨fOk, hfOk⟩ := Option.ne_none_iff_exists'.mp
        (hcheck vchSig mem_cons_self vchPubKey mem_cons_self)
      have hstep := multisigLoop_succ vchPubKeys.length (vchSig :: vchSigs).length m (by simp)
        hreadSigs.stacktop_eq hreadKeys.stacktop_eq (hsigs vchSig mem_cons_self) (hkeys vchPubKey mem_cons_self)
        hfOk
      have hkeys' := fun k hk => hkeys k (mem_cons_of_mem vchPubKey hk)
      rw [length_cons, hstep]
      cases fOk with
      | true =>
        rw [sublistForall₂_cons_of_rel (show CheckSigAccepts checker sigversion scriptCode vchSig vchPubKey
          from hfOk)]
        have hle' : vchSigs.length ≤ vchPubKeys.length := Nat.le_of_succ_le_succ hle
        obtain ⟨fSuccess, m', hloop, hstate, hiff⟩ := ih
          (fun vch hvch => hsigs vch (mem_cons_of_mem vchSig hvch)) hkeys'
          (fun vch hvch k hk => hcheck vch (mem_cons_of_mem vchSig hvch) k
            (mem_cons_of_mem vchPubKey hk)) (ikey + 1) (isig + 1) ⟨m.state, m.spent + 1⟩ hle' hreadSigs.tail hreadKeys.tail
        refine ⟨fSuccess, m', ?_, hstate, hiff⟩
        simpa [Nat.not_lt.mpr hle'] using hloop
      | false =>
        rw [sublistForall₂_cons_of_not_rel (by simp [CheckSigAccepts, hfOk])]
        by_cases hleft : vchPubKeys.length < (vchSig :: vchSigs).length
        · -- too many signatures are left for the keys that are
          refine ⟨false, ⟨m.state, m.spent + 1⟩, ?_, rfl, iff_of_false Bool.false_ne_true ?_⟩
          · rw [if_neg Bool.false_ne_true, if_pos hleft]
          · exact fun hmatch => absurd (length_le_of_sublistForall₂ hmatch) (Nat.not_le.mpr hleft)
        · obtain ⟨fSuccess, m', hloop, hstate, hiff⟩ := ih hsigs hkeys'
            (fun vch hvch k hk => hcheck vch hvch k (mem_cons_of_mem vchPubKey hk))
            (ikey + 1) isig ⟨m.state, m.spent + 1⟩
            (Nat.not_lt.mp hleft) hreadSigs hreadKeys.tail
          refine ⟨fSuccess, m', ?_, hstate, hiff⟩
          rw [if_neg Bool.false_ne_true, if_neg hleft, if_neg Bool.false_ne_true]
          exact hloop

/-- The loop of `OP_CHECKMULTISIG` on a stack `... sigs n keys m`, for signatures and keys whose
encodings pass the tests in force and a checker that answers for each pair of them. It ends, and
`fSuccess` is true exactly if a strictly increasing assignment gives every signature a key for which
`CheckSig` accepts it. -/
theorem multisigLoop_iff_matching (vchSigs vchPubKeys below : List Bytes) (numSigs numKeys : Bytes)
    (hle : vchSigs.length ≤ vchPubKeys.length)
    (hsigs : ∀ vchSig ∈ vchSigs, checkSignatureEncoding crypto flags vchSig = .ok ())
    (hkeys : ∀ vchPubKey ∈ vchPubKeys, checkPubKeyEncoding flags sigversion vchPubKey = .ok ())
    (hcheck : ∀ vchSig ∈ vchSigs, ∀ vchPubKey ∈ vchPubKeys,
      checker.checkSig vchSig vchPubKey scriptCode sigversion ≠ none)
    (m : Metered EvalState)
    (hstack : m.state.stack = below ++ vchSigs ++ [numSigs] ++ vchPubKeys ++ [numKeys]) :
    ∃ fSuccess m', multisigLoop crypto flags checker sigversion scriptCode vchPubKeys.length 2
        vchSigs.length (3 + vchPubKeys.length) m = .ok fSuccess m' ∧
      (fSuccess = true ↔ ∃ assign : Fin vchSigs.length → Fin vchPubKeys.length,
        StrictMono assign ∧ ∀ i, checker.checkSig (vchSigs.get i) (vchPubKeys.get (assign i))
          scriptCode sigversion = some true) := by
  have hreadSigs : ReadsFrom m.state.stack (3 + vchPubKeys.length) vchSigs.reverse :=
    ⟨below, [numSigs] ++ vchPubKeys ++ [numKeys], by simp [hstack], by simp; omega⟩
  have hreadKeys : ReadsFrom m.state.stack 2 vchPubKeys.reverse :=
    ⟨below ++ vchSigs ++ [numSigs], [numKeys], by simp [hstack], by simp⟩
  obtain ⟨fSuccess, m', hloop, -, hiff⟩ := multisigLoop_eq_ok
    (fun vch hvch => hsigs vch (mem_reverse.mp hvch))
    (fun vch hvch => hkeys vch (mem_reverse.mp hvch))
    (fun vch hvch k hk => hcheck vch (mem_reverse.mp hvch) k (mem_reverse.mp hk))
    2 (3 + vchPubKeys.length) m (by simpa using hle) hreadSigs hreadKeys
  rw [length_reverse, length_reverse] at hloop
  refine ⟨fSuccess, m', hloop, ?_⟩
  rw [hiff, sublistForall₂_reverse_iff, sublistForall₂_iff_exists_strictMono]
  rfl

end Loop

def nullCrypto : ScriptCrypto where
  ripemd160 _ := BaseBlob.null 20
  sha1 _ := BaseBlob.null 20
  sha256 _ := BaseBlob.null 32
  checkLowS _ := true

def equalBytesChecker : SignatureChecker where
  checkSig vchSig vchPubKey _ _ := some (vchSig == vchPubKey)
  checkLockTime _ := true
  checkSequence _ := true

/-- Two signatures for the first and the last of three keys. -/
theorem multisigLoop_iff_matching_two_of_three :
    ∃ fSuccess m', multisigLoop nullCrypto 0 equalBytesChecker .SIGVERSION_BASE [] 3 2 2 6
        ⟨⟨[[], [1], [2], [2], [1], [3], [2], [3]], [], [], 0, []⟩, 0⟩ = .ok fSuccess m' ∧
      (fSuccess = true ↔ ∃ assign : Fin 2 → Fin 3, StrictMono assign ∧
        ∀ i, equalBytesChecker.checkSig ([[1], [2]].get i) ([[1], [3], [2]].get (assign i)) []
          .SIGVERSION_BASE = some true) :=
  multisigLoop_iff_matching [[1], [2]] [[1], [3], [2]] [[]] [2] [3] (by decide) (by decide)
    (by decide) (by decide) ⟨⟨[[], [1], [2], [2], [1], [3], [2], [3]], [], [], 0, []⟩, 0⟩ rfl

end MutableBitcoin
