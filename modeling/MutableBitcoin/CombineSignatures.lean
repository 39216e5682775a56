import MutableBitcoin.EvalSafety
import MutableBitcoin.Lib.OrderedContainers
import MutableBitcoin.SolverGrammar
import Mathlib.Data.Finmap

/-!
# Combining signatures

`CombineSignatures` of `sign.cpp`. It ignores whether `Solver` succeeded and goes by the type in a
variable that only `Solver` writes, so a script that makes `Solver` return early leaves it whatever
the variable held: here a parameter, one value for each depth of the recursion.
-/

namespace MutableBitcoin
open Lib Opcode TxnOutType List

/-- `BaseSignatureChecker` itself, which accepts nothing. -/
def baseSignatureChecker : SignatureChecker where
  checkSig _ _ _ _ := some false
  checkLockTime _ := false
  checkSequence _ := false

/-- One value in `PushAll`. -/
def pushValue (result : CScript) (v : Bytes) : CScript :=
  match v with
  | [] => result.pushOpcode OP_0
  | [b] =>
    if 1 ≤ b ∧ b ≤ 16 then result.pushOpcode ((encodeOpN b.toNat).getD OP_INVALIDOPCODE) else result.pushData v
  | _ => result.pushData v

def pushAll (values : List Bytes) : CScript := values.foldl pushValue []

/-- The two parts of an input that satisfy a script. -/
structure SignatureData where
  scriptSig : CScript
  scriptWitness : List Bytes
deriving DecidableEq

/-- The stacks that the two parts push. -/
structure Stacks where
  script : List Bytes
  witness : List Bytes
deriving DecidableEq

namespace Stacks

/-- The stack that `EvalScript` leaves, whether it succeeds or not. Without a signature checker no
assertion fails in it. -/
def evaluated (crypto : ScriptCrypto) (scriptSig : CScript) : List Bytes :=
  match evalOps crypto SCRIPT_VERIFY_STRICTENC baseSignatureChecker .SIGVERSION_BASE scriptSig
    ⟨⟨[], [], [], 0, scriptSig⟩, 0⟩ with
  | .ok _ m => m.state.stack
  | .error _ m => m.state.stack

def ofData (crypto : ScriptCrypto) (data : SignatureData) : Stacks :=
  ⟨evaluated crypto data.scriptSig, data.scriptWitness⟩

def output (s : Stacks) : SignatureData := ⟨pushAll s.script, s.witness⟩

end Stacks

/-- The failure of `assert(vSolutions.size() > 1)`, behind which the first solution is read, and a
failure inside the checker. -/
inductive CombineFailure where
  | vSolutionsSize
  | checkerAborted
deriving DecidableEq

/-- The insertion into `allsigs`, which is ordered as `std::vector` compares. -/
def insertSig (allsigs : List Bytes) (v : Bytes) : List Bytes :=
  insertUnique (fun a b => a.map UInt8.toNat ≤ b.map UInt8.toNat) v allsigs

def allSigs (sigs₁ sigs₂ : List Bytes) : List Bytes := ((sigs₁ ++ sigs₂).filter (· ≠ [])).foldl insertSig []

/-- `std::map<valtype, valtype>`. -/
abbrev SigMap := Finmap (fun _ : Bytes => Bytes)

section Combine

variable (checker : SignatureChecker) (sigversion : SigVersion)

/-- The first key that the signature fits. -/
def matchSig (scriptPubKey : CScript) (sig : Bytes) : List Bytes → SigMap → Except CombineFailure SigMap
  | [], sigs => .ok sigs
  | pubkey :: pubkeys, sigs =>
    if pubkey ∈ sigs then matchSig scriptPubKey sig pubkeys sigs
    else
      match checker.checkSig sig pubkey scriptPubKey sigversion with
      | some true => .ok (sigs.insert pubkey sig)
      | some false => matchSig scriptPubKey sig pubkeys sigs
      | none => .error .checkerAborted

/-- The first signatures, in the order of the keys. -/
def takeSigs (sigs : SigMap) : ℕ → List Bytes → List Bytes
  | 0, _ => []
  | _ + 1, [] => []
  | nSigs + 1, pubkey :: pubkeys =>
    match sigs.lookup pubkey with
    | some sig => sig :: takeSigs sigs nSigs pubkeys
    | none => takeSigs sigs (nSigs + 1) pubkeys

/-- `CombineMultisig`. -/
def combineMultisig (scriptPubKey : CScript) (vSolutions sigs₁ sigs₂ : List Bytes) :
    Except CombineFailure (List Bytes) :=
  if vSolutions.length ≤ 1 then .error .vSolutionsSize
  else do
    let nSigsRequired := ((vSolutions.headD []).headD 0).toNat
    let pubkeys := (vSolutions.drop 1).take (vSolutions.length - 2)
    let sigs ← (allSigs sigs₁ sigs₂).foldlM (fun sigs sig => matchSig checker sigversion scriptPubKey sig pubkeys sigs) ∅
    let result := takeSigs sigs nSigsRequired pubkeys
    -- the missing ones are filled with empty elements, behind the extra one in front
    return [] :: result ++ List.replicate (nSigsRequired - result.length) []

end Combine

def isPlaceholder (v : Option Bytes) : Bool := v.getD [] == []

lemma length_pos_of_not_isPlaceholder {stack : List Bytes} (h : ¬isPlaceholder stack.getLast? = true) :
    0 < stack.length := by
  cases stack with
  | nil => exact absurd rfl h
  | cons v stack => exact Nat.succ_pos _

/-- `CombineSignatures` on two stacks. -/
def combineStacks (checker : SignatureChecker) (unwritten : ℕ → TxnOutType) (depth : ℕ) (scriptPubKey : CScript)
    (txType : TxnOutType) (vSolutions : List Bytes) (sigs₁ sigs₂ : Stacks) (sigversion : SigVersion) :
    Except CombineFailure Stacks :=
  match txType with
  -- nothing is known about these, the bigger one is taken for correct
  | TX_NONSTANDARD | TX_NULL_DATA => .ok (if sigs₂.script.length ≤ sigs₁.script.length then sigs₁ else sigs₂)
  | TX_PUBKEY | TX_PUBKEYHASH => .ok (if isPlaceholder sigs₁.script.head? then sigs₂ else sigs₁)
  | TX_WITNESS_V0_KEYHASH => .ok (if isPlaceholder sigs₁.witness.head? then sigs₂ else sigs₁)
  | TX_SCRIPTHASH =>
    if _htop : isPlaceholder sigs₁.script.getLast? then .ok sigs₂
    else if isPlaceholder sigs₂.script.getLast? then .ok sigs₁
    else do
      let spk := sigs₁.script.getLastD []
      let solved := solver spk (unwritten (depth + 1))
      let result ← combineStacks checker unwritten (depth + 1) spk solved.typeRet solved.vSolutionsRet
        ⟨sigs₁.script.dropLast, sigs₁.witness⟩ ⟨sigs₂.script.dropLast, sigs₂.witness⟩ sigversion
      return ⟨result.script ++ [spk], result.witness⟩
  | TX_MULTISIG => do
    let script ← combineMultisig checker sigversion scriptPubKey vSolutions sigs₁.script sigs₂.script
    return ⟨script, []⟩
  | TX_WITNESS_V0_SCRIPTHASH =>
    if _htop : isPlaceholder sigs₁.witness.getLast? then .ok sigs₂
    else if isPlaceholder sigs₂.witness.getLast? then .ok sigs₁
    else do
      let pubKey2 := sigs₁.witness.getLastD []
      let solved := solver pubKey2 (unwritten (depth + 1))
      let result ← combineStacks checker unwritten (depth + 1) pubKey2 solved.typeRet solved.vSolutionsRet
        ⟨sigs₁.witness.dropLast, []⟩ ⟨sigs₂.witness.dropLast, []⟩ .SIGVERSION_WITNESS_V0
      return ⟨[], result.script ++ [pubKey2]⟩
  | unnamed => .ok ⟨[], []⟩
termination_by sigs₁.script.length + sigs₁.witness.length
decreasing_by
  · have hpos := length_pos_of_not_isPlaceholder _htop
    simp only [length_dropLast]
    omega
  · have hpos := length_pos_of_not_isPlaceholder _htop
    simp only [length_dropLast, length_nil]
    omega

/-- `CombineSignatures`. -/
def combineSignatures (crypto : ScriptCrypto) (checker : SignatureChecker) (unwritten : ℕ → TxnOutType)
    (scriptPubKey : CScript) (data₁ data₂ : SignatureData) : Except CombineFailure SignatureData :=
  let solved := solver scriptPubKey (unwritten 0)
  (combineStacks checker unwritten 0 scriptPubKey solved.typeRet solved.vSolutionsRet (.ofData crypto data₁)
    (.ofData crypto data₂) .SIGVERSION_BASE).map Stacks.output

end MutableBitcoin
