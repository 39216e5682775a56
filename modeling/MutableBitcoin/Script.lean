import MutableBitcoin.Uint256

/-!
# Scripts

`CScript` of `script.h`: building a script with `operator<<`, iterating it with `GetOp`, and
counting signature operations. An iterator into a script is the suffix it points to, so
`end() - pc` is the length of the suffix.
-/

namespace MutableBitcoin
open Lib

abbrev CScript := Bytes

/-- An opcode is a byte; the names of `opcodetype` that the code refers to follow. -/
abbrev Opcode := UInt8

namespace Opcode

def OP_0 : Opcode := 0x00
def OP_PUSHDATA1 : Opcode := 0x4c
def OP_PUSHDATA2 : Opcode := 0x4d
def OP_PUSHDATA4 : Opcode := 0x4e
def OP_1NEGATE : Opcode := 0x4f
def OP_1 : Opcode := 0x51
def OP_16 : Opcode := 0x60
def OP_NOP : Opcode := 0x61
def OP_IF : Opcode := 0x63
def OP_NOTIF : Opcode := 0x64
def OP_ELSE : Opcode := 0x67
def OP_ENDIF : Opcode := 0x68
def OP_VERIFY : Opcode := 0x69
def OP_RETURN : Opcode := 0x6a
def OP_TOALTSTACK : Opcode := 0x6b
def OP_FROMALTSTACK : Opcode := 0x6c
def OP_2DROP : Opcode := 0x6d
def OP_2DUP : Opcode := 0x6e
def OP_3DUP : Opcode := 0x6f
def OP_2OVER : Opcode := 0x70
def OP_2ROT : Opcode := 0x71
def OP_2SWAP : Opcode := 0x72
def OP_IFDUP : Opcode := 0x73
def OP_DEPTH : Opcode := 0x74
def OP_DROP : Opcode := 0x75
def OP_DUP : Opcode := 0x76
def OP_NIP : Opcode := 0x77
def OP_OVER : Opcode := 0x78
def OP_PICK : Opcode := 0x79
def OP_ROLL : Opcode := 0x7a
def OP_ROT : Opcode := 0x7b
def OP_SWAP : Opcode := 0x7c
def OP_TUCK : Opcode := 0x7d
def OP_CAT : Opcode := 0x7e
def OP_SUBSTR : Opcode := 0x7f
def OP_LEFT : Opcode := 0x80
def OP_RIGHT : Opcode := 0x81
def OP_SIZE : Opcode := 0x82
def OP_INVERT : Opcode := 0x83
def OP_AND : Opcode := 0x84
def OP_OR : Opcode := 0x85
def OP_XOR : Opcode := 0x86
def OP_EQUAL : Opcode := 0x87
def OP_EQUALVERIFY : Opcode := 0x88
def OP_1ADD : Opcode := 0x8b
def OP_1SUB : Opcode := 0x8c
def OP_2MUL : Opcode := 0x8d
def OP_2DIV : Opcode := 0x8e
def OP_NEGATE : Opcode := 0x8f
def OP_ABS : Opcode := 0x90
def OP_NOT : Opcode := 0x91
def OP_0NOTEQUAL : Opcode := 0x92
def OP_ADD : Opcode := 0x93
def OP_SUB : Opcode := 0x94
def OP_MUL : Opcode := 0x95
def OP_DIV : Opcode := 0x96
def OP_MOD : Opcode := 0x97
def OP_LSHIFT : Opcode := 0x98
def OP_RSHIFT : Opcode := 0x99
def OP_BOOLAND : Opcode := 0x9a
def OP_BOOLOR : Opcode := 0x9b
def OP_NUMEQUAL : Opcode := 0x9c
def OP_NUMEQUALVERIFY : Opcode := 0x9d
def OP_NUMNOTEQUAL : Opcode := 0x9e
def OP_LESSTHAN : Opcode := 0x9f
def OP_GREATERTHAN : Opcode := 0xa0
def OP_LESSTHANOREQUAL : Opcode := 0xa1
def OP_GREATERTHANOREQUAL : Opcode := 0xa2
def OP_MIN : Opcode := 0xa3
def OP_MAX : Opcode := 0xa4
def OP_WITHIN : Opcode := 0xa5
def OP_RIPEMD160 : Opcode := 0xa6
def OP_SHA1 : Opcode := 0xa7
def OP_SHA256 : Opcode := 0xa8
def OP_HASH160 : Opcode := 0xa9
def OP_HASH256 : Opcode := 0xaa
def OP_CODESEPARATOR : Opcode := 0xab
def OP_CHECKSIG : Opcode := 0xac
def OP_CHECKSIGVERIFY : Opcode := 0xad
def OP_CHECKMULTISIG : Opcode := 0xae
def OP_CHECKMULTISIGVERIFY : Opcode := 0xaf
def OP_NOP1 : Opcode := 0xb0
def OP_CHECKLOCKTIMEVERIFY : Opcode := 0xb1
def OP_CHECKSEQUENCEVERIFY : Opcode := 0xb2
def OP_NOP4 : Opcode := 0xb3
def OP_NOP5 : Opcode := 0xb4
def OP_NOP6 : Opcode := 0xb5
def OP_NOP7 : Opcode := 0xb6
def OP_NOP8 : Opcode := 0xb7
def OP_NOP9 : Opcode := 0xb8
def OP_NOP10 : Opcode := 0xb9
def OP_INVALIDOPCODE : Opcode := 0xff

end Opcode

open Opcode

def MAX_SCRIPT_SIZE : ℕ := 10000

def MAX_PUBKEYS_PER_MULTISIG : ℕ := 20

namespace CScript

/-- `script << opcode`. -/
def pushOpcode (script : CScript) (opcode : Opcode) : CScript := script ++ [opcode]

/-- `script << b`: the shortest push encoding for the size of the data. -/
def pushData (script : CScript) (b : Bytes) : CScript :=
  script ++
    (if b.length < OP_PUSHDATA1.toNat then [UInt8.ofNat b.length]
    else if b.length ≤ 0xff then [OP_PUSHDATA1, UInt8.ofNat b.length]
    else if b.length ≤ 0xffff then OP_PUSHDATA2 :: leBytes 2 b.length
    else OP_PUSHDATA4 :: leBytes 4 b.length) ++ b

def magnitude (n : ℕ) : Bytes := (Nat.digits 256 n).map UInt8.ofNat

/-- `CScriptNum::serialize`. -/
def scriptNumSerialize (value : ℤ) : Bytes :=
  if value = 0 then []
  else
    let neg := decide (value < 0)
    let result := magnitude value.natAbs
    let back := result.getLastD 0
    if back &&& 0x80 ≠ 0 then result ++ [if neg then 0x80 else 0]
    else if neg then result.dropLast ++ [back ||| 0x80]
    else result

/-- `script << n` for an integer. -/
def pushInt64 (script : CScript) (n : ℤ) : CScript :=
  if n = -1 ∨ (1 ≤ n ∧ n ≤ 16) then script ++ [UInt8.ofNat (n + (OP_1.toNat - 1)).toNat]
  else if n = 0 then script ++ [OP_0]
  else pushData script (scriptNumSerialize n)

/-- The outcome of `GetOp2`: its result, the output parameters and the iterator it leaves. -/
structure GetOpResult where
  ok : Bool
  opcodeRet : Opcode
  vchRet : Bytes
  pc : Bytes
deriving DecidableEq

def getOperand (opcode : Opcode) (nSize : ℕ) (pc : Bytes) : GetOpResult :=
  if pc.length < nSize then ⟨false, OP_INVALIDOPCODE, [], pc⟩
  else ⟨true, opcode, pc.take nSize, pc.drop nSize⟩

/-- `CScript::GetOp2`. -/
def getOp2 : Bytes → GetOpResult
  | [] => ⟨false, OP_INVALIDOPCODE, [], []⟩
  | opcode :: pc =>
    if opcode ≤ OP_PUSHDATA4 then
      if opcode < OP_PUSHDATA1 then getOperand opcode opcode.toNat pc
      else
        -- the size follows in one, two or four little-endian bytes
        let nBytes := if opcode = OP_PUSHDATA1 then 1 else if opcode = OP_PUSHDATA2 then 2 else 4
        if pc.length < nBytes then ⟨false, OP_INVALIDOPCODE, [], pc⟩
        else getOperand opcode (leValue (pc.take nBytes)) (pc.drop nBytes)
    else ⟨true, opcode, [], pc⟩

/-- The operations a loop over `GetOp` reads, whether it ended at `end()`, and the iterator that
the last call left. -/
structure Scan where
  ops : List GetOpResult
  complete : Bool
  pc : Bytes

/-- `while (GetOp(pc, opcode, vch))`. The fuel bounds the number of operations; each takes at
least one byte. -/
def scanOps : ℕ → Bytes → Scan
  | 0, pc => ⟨[], pc.isEmpty, pc⟩
  | fuel + 1, pc =>
    let r := getOp2 pc
    if r.ok then
      let rest := scanOps fuel r.pc
      ⟨r :: rest.ops, rest.complete, rest.pc⟩
    else ⟨[], pc.isEmpty, r.pc⟩

def scan (script : CScript) : Scan := scanOps (script.length + 1) script

def decodeOpN (opcode : Opcode) : ℕ :=
  if opcode = OP_0 then 0 else opcode.toNat - (OP_1.toNat - 1)

/-- One iteration of `GetSigOpCount`, on the count and `lastOpcode`. -/
def sigOpStep (fAccurate : Bool) (acc : ℕ × Opcode) (r : GetOpResult) : ℕ × Opcode :=
  let n :=
    if r.opcodeRet = OP_CHECKSIG ∨ r.opcodeRet = OP_CHECKSIGVERIFY then acc.1 + 1
    else if r.opcodeRet = OP_CHECKMULTISIG ∨ r.opcodeRet = OP_CHECKMULTISIGVERIFY then
      if fAccurate ∧ OP_1 ≤ acc.2 ∧ acc.2 ≤ OP_16 then acc.1 + decodeOpN acc.2
      else acc.1 + MAX_PUBKEYS_PER_MULTISIG
    else acc.1
  (n, r.opcodeRet)

def getSigOpCount (script : CScript) (fAccurate : Bool) : ℕ :=
  ((scan script).ops.foldl (sigOpStep fAccurate) (0, OP_INVALIDOPCODE)).1

def isPayToScriptHash (script : CScript) : Bool :=
  script.length == 23 && script[0]? == some OP_HASH160 && script[1]? == some 0x14 &&
    script[22]? == some OP_EQUAL

/-- `IsWitnessProgram` with its output parameters `version` and `program`. -/
def isWitnessProgram (script : CScript) : Option (ℕ × Bytes) :=
  match script with
  | op :: size :: program =>
    if script.length < 4 ∨ 42 < script.length then none
    else if op ≠ OP_0 ∧ (op < OP_1 ∨ OP_16 < op) then none
    else if size.toNat + 2 = script.length then some (decodeOpN op, program)
    else none
  | _ => none

def isPushOnly (script : CScript) : Bool :=
  (scan script).complete && (scan script).ops.all (fun r => r.opcodeRet ≤ OP_16)

/-- The last item pushed by a script that is read to its end, as the loops over a `scriptSig`
leave it in `vData`. -/
def lastPush (script : CScript) : Bytes :=
  match (scan script).ops.getLast? with
  | some r => r.vchRet
  | none => []

/-- `GetSigOpCount(scriptSig)` of a `scriptPubKey`. -/
def getSigOpCountP2SH (scriptPubKey scriptSig : CScript) : ℕ :=
  if !isPayToScriptHash scriptPubKey then getSigOpCount scriptPubKey true
  else if !isPushOnly scriptSig then 0
  else getSigOpCount (lastPush scriptSig) true

def witnessSigOps (witversion : ℕ) (witprogram : Bytes) (witness : List Bytes) : ℕ :=
  if witversion = 0 then
    if witprogram.length = 20 then 1
    else if witprogram.length = 32 ∧ witness ≠ [] then getSigOpCount (witness.getLastD []) true
    else 0
  else 0

/-- `CountWitnessSigOps` with `SCRIPT_VERIFY_WITNESS` set. -/
def countWitnessSigOps (scriptSig scriptPubKey : CScript) (witness : List Bytes) : ℕ :=
  match isWitnessProgram scriptPubKey with
  | some (version, program) => witnessSigOps version program witness
  | none =>
    if isPayToScriptHash scriptPubKey && isPushOnly scriptSig then
      match isWitnessProgram (lastPush scriptSig) with
      | some (version, program) => witnessSigOps version program witness
      | none => 0
    else 0

def isUnspendable (script : CScript) : Bool :=
  script.head? == some OP_RETURN || decide (MAX_SCRIPT_SIZE < script.length)

end CScript

end MutableBitcoin

/-!
## Numbers and truth values on the stack

`CScriptNum` of `script.h` and `CastToBool` of `interpreter.cpp`. A number is the `int64_t` that
`CScriptNum` stores; the operators that assert the range of their result return nothing where the
assertion fails.
-/

namespace MutableBitcoin
open Lib

def INT_MIN : ℤ := -2 ^ 31
def INT_MAX : ℤ := 2 ^ 31 - 1
def INT64_MIN : ℤ := -2 ^ 63
def INT64_MAX : ℤ := 2 ^ 63 - 1

/-- What the constructor of `CScriptNum` throws: "script number overflow" and "non-minimally
encoded script number". -/
inductive ScriptNumError where
  | overflow
  | nonMinimal
deriving DecidableEq

namespace CScriptNum

def nDefaultMaxNumSize : ℕ := 4

/-- `CScriptNum::set_vch` on at most eight bytes: the highest bit is the sign. -/
def setVch (vch : Bytes) : ℤ :=
  match vch.getLast? with
  | none => 0
  | some back =>
    if back &&& 0x80 ≠ 0 then -((leValue vch % 2 ^ (8 * vch.length - 1) : ℕ) : ℤ)
    else (leValue vch : ℤ)

/-- The test of the constructor under `fRequireMinimal`: the last byte carries more than a sign,
unless its sign bit would collide with the byte before it. -/
def isMinimal (vch : Bytes) : Bool :=
  match vch.reverse with
  | [] => true
  | [back] => back &&& 0x7f != 0
  | back :: second :: _ => back &&& 0x7f != 0 || second &&& 0x80 != 0

/-- The constructor of `CScriptNum` from a stack element. -/
def ofVch (vch : Bytes) (fRequireMinimal : Bool) (nMaxNumSize : ℕ) : Except ScriptNumError ℤ :=
  if nMaxNumSize < vch.length then .error .overflow
  else if fRequireMinimal && !isMinimal vch then .error .nonMinimal
  else .ok (setVch vch)

/-- Unary minus, which asserts that the value is not the least `int64_t`. -/
def neg (value : ℤ) : Option ℤ :=
  if value ≠ INT64_MIN then some (-value) else none

/-- `operator+=` with its assertion. -/
def addAssign (value rhs : ℤ) : Option ℤ :=
  if rhs = 0 ∨ (0 < rhs ∧ value ≤ INT64_MAX - rhs) ∨ (rhs < 0 ∧ INT64_MIN - rhs ≤ value) then
    some (value + rhs)
  else none

/-- `operator-=` with its assertion. -/
def subAssign (value rhs : ℤ) : Option ℤ :=
  if rhs = 0 ∨ (0 < rhs ∧ INT64_MIN + rhs ≤ value) ∨ (rhs < 0 ∧ value ≤ INT64_MAX + rhs) then
    some (value - rhs)
  else none

/-- `getint`, which clamps to the range of `int`. -/
def getint (value : ℤ) : ℤ :=
  if INT_MAX < value then INT_MAX else if value < INT_MIN then INT_MIN else value

lemma ofVch_of_minimal {vch : Bytes} {fRequireMinimal fRequireMinimal' : Bool} {nMaxNumSize : ℕ}
    {value : ℤ} (hle : fRequireMinimal' = true → fRequireMinimal = true)
    (h : ofVch vch fRequireMinimal nMaxNumSize = .ok value) :
    ofVch vch fRequireMinimal' nMaxNumSize = .ok value := by
  unfold ofVch at h ⊢
  split_ifs at h ⊢ with hsize hmin' hmin
  · simp only [Bool.and_eq_true] at hmin hmin'
    exact absurd ⟨hle hmin'.1, hmin'.2⟩ hmin
  · exact h

end CScriptNum

/-- `CastToBool`: some byte is not zero, the sign of the last byte apart. -/
def castToBool : Bytes → Bool
  | [] => false
  | [b] => b != 0 && b != 0x80
  | b :: b' :: vch => b != 0 || castToBool (b' :: vch)

end MutableBitcoin
