import MutableBitcoin.SignatureChecker

/-!
# Standard scripts

`standard.cpp`: the templates that `Solver` compares a script with, and the scripts for the
destinations that it recognises. A template is a script itself, in which opcodes that no script may
execute stand for what varies.
-/

namespace MutableBitcoin
open Lib Opcode

namespace Opcode

def OP_SMALLINTEGER : Opcode := 0xfa
def OP_PUBKEYS : Opcode := 0xfb
def OP_PUBKEYHASH : Opcode := 0xfd
def OP_PUBKEY : Opcode := 0xfe

end Opcode

/-- `txnouttype`. Only a variable that was never written holds `unnamed`, a value that is none of
the enumerators. -/
inductive TxnOutType where
  | TX_NONSTANDARD
  | TX_PUBKEY
  | TX_PUBKEYHASH
  | TX_SCRIPTHASH
  | TX_MULTISIG
  | TX_NULL_DATA
  | TX_WITNESS_V0_KEYHASH
  | TX_WITNESS_V0_SCRIPTHASH
  | unnamed
deriving DecidableEq

open TxnOutType

/-- `mTemplates`, in the order of its keys. -/
def mTemplates : List (TxnOutType × CScript) :=
  [(TX_PUBKEY, [OP_PUBKEY, OP_CHECKSIG]),
    (TX_PUBKEYHASH, [OP_DUP, OP_HASH160, OP_PUBKEYHASH, OP_EQUALVERIFY, OP_CHECKSIG]),
    (TX_MULTISIG, [OP_SMALLINTEGER, OP_PUBKEYS, OP_SMALLINTEGER, OP_CHECKMULTISIG])]

/-- The result of `Solver` with what it leaves in `typeRet` and `vSolutionsRet`. -/
structure SolverResult where
  ok : Bool
  typeRet : TxnOutType
  vSolutionsRet : List Bytes
deriving DecidableEq

/-- The loop at `OP_PUBKEYS`: from the operation that was read last, take keys as long as there are
any. -/
def readPubKeys : ℕ → CScript.GetOpResult → List Bytes → CScript.GetOpResult × List Bytes
  | 0, r₁, vSolutionsRet => (r₁, vSolutionsRet)
  | fuel + 1, r₁, vSolutionsRet =>
    if 33 ≤ r₁.vchRet.length ∧ r₁.vchRet.length ≤ 65 then
      let next := CScript.getOp2 r₁.pc
      if next.ok then readPubKeys fuel next (vSolutionsRet ++ [r₁.vchRet])
      else (next, vSolutionsRet ++ [r₁.vchRet])
    else (r₁, vSolutionsRet)

/-- One step of the template comparison. -/
def matchOp (r₁ r₂ : CScript.GetOpResult) (vSolutionsRet : List Bytes) : Option (List Bytes) :=
  if r₂.opcodeRet = OP_PUBKEY then
    if r₁.vchRet.length < 33 ∨ 65 < r₁.vchRet.length then none else some (vSolutionsRet ++ [r₁.vchRet])
  else if r₂.opcodeRet = OP_PUBKEYHASH then
    if r₁.vchRet.length ≠ 20 then none else some (vSolutionsRet ++ [r₁.vchRet])
  else if r₂.opcodeRet = OP_SMALLINTEGER then
    if r₁.opcodeRet = OP_0 ∨ (OP_1 ≤ r₁.opcodeRet ∧ r₁.opcodeRet ≤ OP_16) then
      some (vSolutionsRet ++ [[UInt8.ofNat (CScript.decodeOpN r₁.opcodeRet)]])
    else none
  else if r₁.opcodeRet ≠ r₂.opcodeRet ∨ r₁.vchRet ≠ r₂.vchRet then none
  else some vSolutionsRet

/-- The comparison of a script with a template, from the two iterators on. Each round reads an
operation of the template, so the fuel bounds their number. -/
def compareTemplate : ℕ → Bytes → Bytes → List Bytes → Option (List Bytes)
  | 0, _, _, _ => none
  | fuel + 1, pc₁, pc₂, vSolutionsRet =>
    if pc₁ = [] ∧ pc₂ = [] then some vSolutionsRet
    else
      let r₁ := CScript.getOp2 pc₁
      if !r₁.ok then none
      else
        let r₂ := CScript.getOp2 pc₂
        if !r₂.ok then none
        else if r₂.opcodeRet = OP_PUBKEYS then
          let keys := readPubKeys (pc₁.length + 1) r₁ vSolutionsRet
          let r₂ := CScript.getOp2 r₂.pc
          if !r₂.ok then none
          else (matchOp keys.1 r₂ keys.2).bind (compareTemplate fuel keys.1.pc r₂.pc)
        else (matchOp r₁ r₂ vSolutionsRet).bind (compareTemplate fuel r₁.pc r₂.pc)

/-- The additional checks for `TX_MULTISIG`. -/
def badMultisigCounts (vSolutionsRet : List Bytes) : Bool :=
  let m := (vSolutionsRet.headD []).headD 0
  let n := (vSolutionsRet.getLastD []).headD 0
  m < 1 || n < 1 || n < m || vSolutionsRet.length - 2 != n.toNat

/-- The template loop of `Solver`. -/
def scanTemplates (script₁ : CScript) : List (TxnOutType × CScript) → SolverResult
  | [] => ⟨false, TX_NONSTANDARD, []⟩
  | tplate :: templates =>
    match compareTemplate (tplate.2.length + 1) script₁ tplate.2 [] with
    | some vSolutionsRet =>
      if tplate.1 = TX_MULTISIG ∧ badMultisigCounts vSolutionsRet then ⟨false, tplate.1, vSolutionsRet⟩
      else ⟨true, tplate.1, vSolutionsRet⟩
    | none => scanTemplates script₁ templates

def isNullData : CScript → Bool
  | [] => false
  | opcode :: pc => opcode == OP_RETURN && CScript.isPushOnly pc

/-- `Solver` on the value that `typeRet` has before; what `vSolutionsRet` held is cleared. -/
def solver (scriptPubKey : CScript) (typeRet : TxnOutType) : SolverResult :=
  if CScript.isPayToScriptHash scriptPubKey then ⟨true, TX_SCRIPTHASH, [(scriptPubKey.drop 2).take 20]⟩
  else
    match CScript.isWitnessProgram scriptPubKey with
    | some (witnessversion, witnessprogram) =>
      if witnessversion = 0 ∧ witnessprogram.length = 20 then ⟨true, TX_WITNESS_V0_KEYHASH, [witnessprogram]⟩
      else if witnessversion = 0 ∧ witnessprogram.length = 32 then
        ⟨true, TX_WITNESS_V0_SCRIPTHASH, [witnessprogram]⟩
      else ⟨false, typeRet, []⟩
    | none =>
      if isNullData scriptPubKey then ⟨true, TX_NULL_DATA, []⟩ else scanTemplates scriptPubKey mTemplates

/-- A `CPubKey` as it is stored: the first byte says how long the key is, and it is valid if that
is a length at all. -/
structure StoredPubKey where
  vch : BaseBlob 65
deriving DecidableEq

namespace StoredPubKey

def size (pubKey : StoredPubKey) : ℕ := pubKeyLen (pubKey.vch.data.headD 0)

def isValid (pubKey : StoredPubKey) : Bool := 0 < pubKey.size

/-- The bytes from `begin()` to `end()`. -/
def bytes (pubKey : StoredPubKey) : Bytes := pubKey.vch.data.take pubKey.size

end StoredPubKey

/-- `CTxDestination`. -/
inductive CTxDestination where
  | noDestination
  | keyID (hash : Uint160)
  | scriptID (hash : Uint160)
deriving DecidableEq

/-- The constructor of `uint160` from a vector; nothing where its assertion fails. -/
def uint160OfVector (vch : Bytes) : Option Uint160 := if h : vch.length = 20 then some ⟨vch, h⟩ else none

/-- `ExtractDestination`. The type is read only where `Solver` has written it. -/
def extractDestination (crypto : ScriptCrypto) (scriptPubKey : CScript) : Option CTxDestination :=
  let solved := solver scriptPubKey unnamed
  if !solved.ok then none
  else
    let vSolution := solved.vSolutionsRet.headD []
    match solved.typeRet with
    | TX_PUBKEY => if pubKeyIsValid vSolution then some (.keyID (crypto.hash160 vSolution)) else none
    | TX_PUBKEYHASH => (uint160OfVector vSolution).map .keyID
    | TX_SCRIPTHASH => (uint160OfVector vSolution).map .scriptID
    | _ => none

/-- `GetScriptForDestination`. -/
def getScriptForDestination : CTxDestination → CScript
  | .noDestination => []
  | .keyID keyID =>
    ((CScript.pushData (CScript.pushOpcode (CScript.pushOpcode [] OP_DUP) OP_HASH160)
      keyID.data).pushOpcode OP_EQUALVERIFY).pushOpcode OP_CHECKSIG
  | .scriptID scriptID => (CScript.pushData (CScript.pushOpcode [] OP_HASH160) scriptID.data).pushOpcode OP_EQUAL

def getScriptForRawPubKey (pubKey : StoredPubKey) : CScript :=
  (CScript.pushData [] pubKey.bytes).pushOpcode OP_CHECKSIG

/-- `EncodeOP_N`; nothing where its assertion fails. -/
def encodeOpN (n : ℤ) : Option Opcode :=
  if 0 ≤ n ∧ n ≤ 16 then some (if n = 0 then OP_0 else OP_1 + UInt8.ofNat n.toNat - 1) else none

def getScriptForMultisig (nRequired : ℤ) (keys : List StoredPubKey) : Option CScript := do
  let required ← encodeOpN nRequired
  let script := keys.foldl (fun script key => CScript.pushData script key.bytes) (CScript.pushOpcode [] required)
  let size ← encodeOpN keys.length
  return (script.pushOpcode size).pushOpcode OP_CHECKMULTISIG

end MutableBitcoin
