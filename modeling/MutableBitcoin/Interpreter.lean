import MutableBitcoin.Lib.StateRun
import MutableBitcoin.SignatureChecker

/-!
# The script interpreter

`EvalScript` of `interpreter.cpp`. The variables of the function that change along the loop are the state; a run
ends with the state that it leaves, also where it stops early: with an error that the function returns, with an
exception that it catches, or with a failed assertion.
-/

namespace MutableBitcoin
open Lib Opcode ScriptError List

def MAX_SCRIPT_ELEMENT_SIZE : ℕ := 520
def MAX_OPS_PER_SCRIPT : ℕ := 201
def MAX_STACK_SIZE : ℕ := 1000

namespace CScript

/-- The inner loop of `FindAndDelete`: step over the copies of `b` at the iterator. -/
def skipEqual (b : CScript) : ℕ → Bytes → ℕ → Bytes × ℕ
  | 0, pc, nFound => (pc, nFound)
  | fuel + 1, pc, nFound =>
    if b.isPrefixOf pc then skipEqual b fuel (pc.drop b.length) (nFound + 1) else (pc, nFound)

/-- The outer loop of `FindAndDelete`, on `result`, `pc2`, `pc` and `nFound`. -/
def findAndDeleteLoop (b : CScript) : ℕ → Bytes → Bytes → Bytes → ℕ → Bytes × Bytes × ℕ
  | 0, result, pc2, _, nFound => (result, pc2, nFound)
  | fuel + 1, result, pc2, pc, nFound =>
    let result := result ++ pc2.take (pc2.length - pc.length)
    let skipped := skipEqual b pc.length pc nFound
    let r := getOp2 skipped.1
    if r.ok then findAndDeleteLoop b fuel result skipped.1 r.pc skipped.2
    else (result, skipped.1, skipped.2)

/-- `FindAndDelete`: the number of copies found, and the script without them. -/
def findAndDelete (script b : CScript) : ℕ × CScript :=
  if b.isEmpty then (0, script)
  else
    let found := findAndDeleteLoop b (script.length + 1) [] script script 0
    if 0 < found.2.2 then (found.2.2, found.1 ++ found.2.1) else (found.2.2, script)

end CScript

/-- The variables of `EvalScript`. The position `pbegincodehash` is the part of the script from
there on. -/
structure EvalState where
  stack : List Bytes
  altstack : List Bytes
  vfExec : List Bool
  nOpCount : ℕ
  pbegincodehash : Bytes

/-- The exceptions of the constructor of `CScriptNum`, of `at` and of `popstack`. An iterator
before `begin()` is taken for an index out of range. -/
inductive Thrown where
  | scriptnumError (e : ScriptNumError)
  | outOfRange
  | stackEmpty
deriving DecidableEq

/-- How a run stops early. -/
inductive Interrupt where
  | returned (serror : ScriptError)
  | thrown (e : Thrown)
  | aborted
deriving DecidableEq

/-- A part of `EvalScript` that does not reach the signature checker. -/
abbrev Interp := EStateM Interrupt EvalState

/-- A part of `EvalScript` with the number of calls of `CheckSig`. -/
abbrev Audit := EStateM Interrupt (Metered EvalState)

section Stack

variable {σ α : Type}

/-- `if (c) return set_error(serror, e)`. -/
def scriptErrorIf (c : Prop) [Decidable c] (e : ScriptError) : EStateM Interrupt σ Unit :=
  stopIf c (.returned e)

def ofReturned : Except ScriptError α → EStateM Interrupt σ α
  | .ok a => pure a
  | .error e => throw (.returned e)

def ofScriptNum : Except ScriptNumError α → EStateM Interrupt σ α
  | .ok a => pure a
  | .error e => throw (.thrown (.scriptnumError e))

/-- `assert`. -/
def ofAssert : Option α → EStateM Interrupt σ α
  | some a => pure a
  | none => throw .aborted

/-- `if (stack.size() < n) return set_error(serror, e)`. -/
def needStack (n : ℕ) (e : ScriptError) : Interp Unit := fun s =>
  scriptErrorIf (s.stack.length < n) e s

/-- The element `stacktop(-i)` of a vector. -/
def topOf (stack : List Bytes) (i : ℕ) : Interp Bytes :=
  match if i ≤ stack.length then stack[stack.length - i]? else none with
  | some vch => pure vch
  | none => throw (.thrown .outOfRange)

def stacktop (i : ℕ) : Interp Bytes := fun s => topOf s.stack i s

def popstack : Interp Unit := fun s =>
  match s.stack with
  | [] => .error (.thrown .stackEmpty) s
  | _ :: _ => .ok () { s with stack := s.stack.dropLast }

def pushBack (vch : Bytes) : Interp Unit := fun s => .ok () { s with stack := s.stack ++ [vch] }

/-- `stack.erase(stack.end() - first, stack.end() - last)`. -/
def eraseStack (first last : ℕ) : Interp Unit := fun s =>
  let n := s.stack.length
  if n < first then .error (.thrown .outOfRange) s
  else .ok () { s with stack := s.stack.take (n - first) ++ s.stack.drop (n - last) }

/-- `stack.insert(stack.end() - i, vch)`. -/
def insertStack (i : ℕ) (vch : Bytes) : Interp Unit := fun s =>
  let n := s.stack.length
  if n < i then .error (.thrown .outOfRange) s
  else .ok () { s with stack := s.stack.take (n - i) ++ vch :: s.stack.drop (n - i) }

/-- `swap(stacktop(-i), stacktop(-j))`. -/
def swapStack (i j : ℕ) : Interp Unit := do
  let vch₁ ← stacktop i
  let vch₂ ← stacktop j
  modify fun s =>
    let n := s.stack.length
    { s with stack := (s.stack.set (n - i) vch₂).set (n - j) vch₁ }

def vchFalse : Bytes := []
def vchTrue : Bytes := [1]

def vchBool (b : Bool) : Bytes := if b then vchTrue else vchFalse

end Stack

/-- The blocks of the `switch` over the opcode that do not reach the signature checker. -/
inductive Block where
  | pushNum
  | nop
  | checkLockTimeVerify
  | checkSequenceVerify
  | upgradableNop
  | ifNotIf
  | opElse
  | endIf
  | verify
  | opReturn
  | toAltStack
  | fromAltStack
  | drop2
  | dup2
  | dup3
  | over2
  | rot2
  | swap2
  | ifDup
  | depth
  | drop
  | dup
  | nip
  | over
  | pickRoll
  | rot
  | swap
  | tuck
  | size
  | equal
  | unary
  | binary
  | within
  | hash
  | codeSeparator
deriving DecidableEq

/-- A block of the `switch`. -/
inductive Label where
  | plain (block : Block)
  | checkSig
  | checkMultisig
deriving DecidableEq

/-- The `case` labels of the `switch` except those of the small numbers. -/
def switchTable : List (Opcode × Label) :=
  [(OP_NOP, .plain .nop), (OP_CHECKLOCKTIMEVERIFY, .plain .checkLockTimeVerify),
    (OP_CHECKSEQUENCEVERIFY, .plain .checkSequenceVerify),
    (OP_NOP1, .plain .upgradableNop), (OP_NOP4, .plain .upgradableNop), (OP_NOP5, .plain .upgradableNop),
    (OP_NOP6, .plain .upgradableNop), (OP_NOP7, .plain .upgradableNop), (OP_NOP8, .plain .upgradableNop),
    (OP_NOP9, .plain .upgradableNop), (OP_NOP10, .plain .upgradableNop),
    (OP_IF, .plain .ifNotIf), (OP_NOTIF, .plain .ifNotIf), (OP_ELSE, .plain .opElse),
    (OP_ENDIF, .plain .endIf), (OP_VERIFY, .plain .verify), (OP_RETURN, .plain .opReturn),
    (OP_TOALTSTACK, .plain .toAltStack), (OP_FROMALTSTACK, .plain .fromAltStack),
    (OP_2DROP, .plain .drop2), (OP_2DUP, .plain .dup2), (OP_3DUP, .plain .dup3),
    (OP_2OVER, .plain .over2), (OP_2ROT, .plain .rot2), (OP_2SWAP, .plain .swap2),
    (OP_IFDUP, .plain .ifDup), (OP_DEPTH, .plain .depth), (OP_DROP, .plain .drop),
    (OP_DUP, .plain .dup), (OP_NIP, .plain .nip), (OP_OVER, .plain .over),
    (OP_PICK, .plain .pickRoll), (OP_ROLL, .plain .pickRoll), (OP_ROT, .plain .rot),
    (OP_SWAP, .plain .swap), (OP_TUCK, .plain .tuck), (OP_SIZE, .plain .size),
    (OP_EQUAL, .plain .equal), (OP_EQUALVERIFY, .plain .equal),
    (OP_1ADD, .plain .unary), (OP_1SUB, .plain .unary), (OP_NEGATE, .plain .unary),
    (OP_ABS, .plain .unary), (OP_NOT, .plain .unary), (OP_0NOTEQUAL, .plain .unary),
    (OP_ADD, .plain .binary), (OP_SUB, .plain .binary), (OP_BOOLAND, .plain .binary),
    (OP_BOOLOR, .plain .binary), (OP_NUMEQUAL, .plain .binary), (OP_NUMEQUALVERIFY, .plain .binary),
    (OP_NUMNOTEQUAL, .plain .binary), (OP_LESSTHAN, .plain .binary), (OP_GREATERTHAN, .plain .binary),
    (OP_LESSTHANOREQUAL, .plain .binary), (OP_GREATERTHANOREQUAL, .plain .binary),
    (OP_MIN, .plain .binary), (OP_MAX, .plain .binary), (OP_WITHIN, .plain .within),
    (OP_RIPEMD160, .plain .hash), (OP_SHA1, .plain .hash), (OP_SHA256, .plain .hash),
    (OP_HASH160, .plain .hash), (OP_HASH256, .plain .hash),
    (OP_CODESEPARATOR, .plain .codeSeparator),
    (OP_CHECKSIG, .checkSig), (OP_CHECKSIGVERIFY, .checkSig),
    (OP_CHECKMULTISIG, .checkMultisig), (OP_CHECKMULTISIGVERIFY, .checkMultisig)]

/-- The block that `switch (opcode)` jumps to; `none` is `default`. -/
def switchLabel (opcode : Opcode) : Option Label :=
  if opcode = OP_1NEGATE ∨ (OP_1 ≤ opcode ∧ opcode ≤ OP_16) then some (.plain .pushNum)
  else switchTable.lookup opcode

lemma mem_switchTable {opcode : Opcode} {label : Label} (h : switchLabel opcode = some label) :
    label = .plain .pushNum ∨ (opcode, label) ∈ switchTable := by
  unfold switchLabel at h
  split_ifs at h
  · exact .inl (Option.some.inj h).symm
  · obtain ⟨l₁, l₂, hl, -⟩ := lookup_eq_some_iff.mp h
    refine .inr ?_
    rw [hl]
    exact mem_append_right _ mem_cons_self

lemma opcode_of_switchLabel {opcode : Opcode} {label : Label} {opcodes : List Opcode}
    (h : switchLabel opcode = some label) (hlabel : label ≠ .plain .pushNum)
    (htable : ∀ p ∈ switchTable, p.2 = label → p.1 ∈ opcodes) : opcode ∈ opcodes := by
  obtain rfl | hmem := mem_switchTable h
  · exact absurd rfl hlabel
  · exact htable _ hmem rfl

def disabledOpcodes : List Opcode :=
  [OP_CAT, OP_SUBSTR, OP_LEFT, OP_RIGHT, OP_INVERT, OP_AND, OP_OR, OP_XOR, OP_2MUL, OP_2DIV, OP_MUL,
    OP_DIV, OP_MOD, OP_LSHIFT, OP_RSHIFT]

section Numeric

/-- A `bool` assigned to a `CScriptNum`. -/
def numBool (b : Bool) : ℤ := if b then 1 else 0

/-- The inner `switch` of the operations on one number, whose `default` asserts. -/
def unaryResult (opcode : Opcode) (bn : ℤ) : Option ℤ :=
  if opcode = OP_1ADD then CScriptNum.addAssign bn 1
  else if opcode = OP_1SUB then CScriptNum.subAssign bn 1
  else if opcode = OP_NEGATE then CScriptNum.neg bn
  else if opcode = OP_ABS then if bn < 0 then CScriptNum.neg bn else some bn
  else if opcode = OP_NOT then some (numBool (bn == 0))
  else if opcode = OP_0NOTEQUAL then some (numBool (bn != 0))
  else none

/-- The inner `switch` of the operations on two numbers, whose `default` asserts. -/
def binaryResult (opcode : Opcode) (bn1 bn2 : ℤ) : Option ℤ :=
  if opcode = OP_ADD then some (bn1 + bn2)
  else if opcode = OP_SUB then some (bn1 - bn2)
  else if opcode = OP_BOOLAND then some (numBool (bn1 != 0 && bn2 != 0))
  else if opcode = OP_BOOLOR then some (numBool (bn1 != 0 || bn2 != 0))
  else if opcode = OP_NUMEQUAL then some (numBool (bn1 == bn2))
  else if opcode = OP_NUMEQUALVERIFY then some (numBool (bn1 == bn2))
  else if opcode = OP_NUMNOTEQUAL then some (numBool (bn1 != bn2))
  else if opcode = OP_LESSTHAN then some (numBool (bn1 < bn2))
  else if opcode = OP_GREATERTHAN then some (numBool (bn1 > bn2))
  else if opcode = OP_LESSTHANOREQUAL then some (numBool (bn1 ≤ bn2))
  else if opcode = OP_GREATERTHANOREQUAL then some (numBool (bn1 ≥ bn2))
  else if opcode = OP_MIN then some (if bn1 < bn2 then bn1 else bn2)
  else if opcode = OP_MAX then some (if bn1 > bn2 then bn1 else bn2)
  else none

def hashResult (crypto : ScriptCrypto) (opcode : Opcode) (vch : Bytes) : Bytes :=
  if opcode = OP_RIPEMD160 then (crypto.ripemd160 vch).data
  else if opcode = OP_SHA1 then (crypto.sha1 vch).data
  else if opcode = OP_SHA256 then (crypto.sha256 vch).data
  else if opcode = OP_HASH160 then (crypto.hash160 vch).data
  else if opcode = OP_HASH256 then (crypto.hash256 vch).data
  else List.replicate 32 0

end Numeric

section EvalScript

variable (crypto : ScriptCrypto) (flags : UInt32) (checker : SignatureChecker)
  (sigversion : SigVersion)

def fRequireMinimal : Bool := hasFlag flags SCRIPT_VERIFY_MINIMALDATA

/-- `CScriptNum(stacktop(-i), fRequireMinimal, nMaxNumSize)`. -/
def readNum (i nMaxNumSize : ℕ) : Interp ℤ := do
  let vch ← stacktop i
  ofScriptNum (CScriptNum.ofVch vch (fRequireMinimal flags) nMaxNumSize)

/-- `CScriptNum(stacktop(-i), fRequireMinimal)`. -/
def readDefaultNum (i : ℕ) : Interp ℤ := readNum flags i CScriptNum.nDefaultMaxNumSize

/-- `OP_CHECKLOCKTIMEVERIFY`. -/
def evalCheckLockTimeVerify : Interp Unit :=
  if !hasFlag flags SCRIPT_VERIFY_CHECKLOCKTIMEVERIFY then
    scriptErrorIf (hasFlag flags SCRIPT_VERIFY_DISCOURAGE_UPGRADABLE_NOPS) SCRIPT_ERR_DISCOURAGE_UPGRADABLE_NOPS
  else do
    needStack 1 SCRIPT_ERR_INVALID_STACK_OPERATION
    let nLockTime ← readNum flags 1 5
    scriptErrorIf (nLockTime < 0) SCRIPT_ERR_NEGATIVE_LOCKTIME
    scriptErrorIf (!checker.checkLockTime (Int64.ofInt nLockTime)) SCRIPT_ERR_UNSATISFIED_LOCKTIME

/-- `OP_CHECKSEQUENCEVERIFY`. -/
def evalCheckSequenceVerify : Interp Unit :=
  if !hasFlag flags SCRIPT_VERIFY_CHECKSEQUENCEVERIFY then
    scriptErrorIf (hasFlag flags SCRIPT_VERIFY_DISCOURAGE_UPGRADABLE_NOPS) SCRIPT_ERR_DISCOURAGE_UPGRADABLE_NOPS
  else do
    needStack 1 SCRIPT_ERR_INVALID_STACK_OPERATION
    let nSequence ← readNum flags 1 5
    scriptErrorIf (nSequence < 0) SCRIPT_ERR_NEGATIVE_LOCKTIME
    -- an operand with the disable flag makes this a NOP
    scriptErrorIf (Int64.ofInt nSequence &&& int64OfUInt32 SEQUENCE_LOCKTIME_DISABLE_FLAG = 0 ∧
      !checker.checkSequence (Int64.ofInt nSequence)) SCRIPT_ERR_UNSATISFIED_LOCKTIME

/-- The operand of `OP_IF` under `SCRIPT_VERIFY_MINIMALIF` is empty or the byte 1. -/
def isMinimalIf (vch : Bytes) : Bool :=
  !decide (1 < vch.length) && !(vch.length == 1 && vch.getD 0 0 != 1)

def pushExec (fValue : Bool) : Interp Unit :=
  modify fun s => { s with vfExec := s.vfExec ++ [fValue] }

/-- `OP_IF` and `OP_NOTIF`. -/
def evalIf (opcode : Opcode) (fExec : Bool) : Interp Unit :=
  if fExec then do
    needStack 1 SCRIPT_ERR_UNBALANCED_CONDITIONAL
    let vch ← stacktop 1
    scriptErrorIf ((sigversion == .SIGVERSION_WITNESS_V0 && hasFlag flags SCRIPT_VERIFY_MINIMALIF) &&
      !isMinimalIf vch) SCRIPT_ERR_MINIMALIF
    popstack
    pushExec (if opcode = OP_NOTIF then !castToBool vch else castToBool vch)
  else pushExec false

/-- `OP_ELSE` and `OP_ENDIF` change the innermost condition. -/
def modifyExec (f : Bool → List Bool) : Interp Unit := fun s =>
  match s.vfExec.getLast? with
  | none => .error (.returned SCRIPT_ERR_UNBALANCED_CONDITIONAL) s
  | some back => .ok () { s with vfExec := s.vfExec.dropLast ++ f back }

def evalVerify : Interp Unit := do
  needStack 1 SCRIPT_ERR_INVALID_STACK_OPERATION
  let vch ← stacktop 1
  scriptErrorIf (!castToBool vch) SCRIPT_ERR_VERIFY
  popstack

def evalToAltStack : Interp Unit := do
  needStack 1 SCRIPT_ERR_INVALID_STACK_OPERATION
  let vch ← stacktop 1
  modify fun s => { s with altstack := s.altstack ++ [vch] }
  popstack

def evalFromAltStack : Interp Unit := fun s =>
  match s.altstack.getLast? with
  | none => .error (.returned SCRIPT_ERR_INVALID_ALTSTACK_OPERATION) s
  | some vch => .ok () { s with stack := s.stack ++ [vch], altstack := s.altstack.dropLast }

/-- `OP_ROLL` takes away the element that it copies. -/
def eraseRolled (opcode : Opcode) (n : ℕ) : Interp Unit :=
  if opcode = OP_ROLL then eraseStack (n + 1) n else pure ()

/-- `OP_PICK` and `OP_ROLL`. -/
def evalPickRoll (opcode : Opcode) : Interp Unit := do
  needStack 2 SCRIPT_ERR_INVALID_STACK_OPERATION
  let bn ← readDefaultNum flags 1
  let n := CScriptNum.getint bn
  popstack
  scriptErrorIf (n < 0) SCRIPT_ERR_INVALID_STACK_OPERATION
  needStack (n.toNat + 1) SCRIPT_ERR_INVALID_STACK_OPERATION
  let vch ← stacktop (n.toNat + 1)
  eraseRolled opcode n.toNat
  pushBack vch

/-- A `VERIFY` variant pops the result it has pushed, or fails. -/
def verifyResult (c fValue : Bool) (e : ScriptError) : Interp Unit :=
  if c then
    if fValue then popstack else throw (.returned e)
  else pure ()

/-- `OP_EQUAL` and `OP_EQUALVERIFY`. -/
def evalEqual (opcode : Opcode) : Interp Unit := do
  needStack 2 SCRIPT_ERR_INVALID_STACK_OPERATION
  let vch1 ← stacktop 2
  let vch2 ← stacktop 1
  popstack
  popstack
  pushBack (vchBool (vch1 == vch2))
  verifyResult (opcode == OP_EQUALVERIFY) (vch1 == vch2) SCRIPT_ERR_EQUALVERIFY

/-- The operators on one number. -/
def evalUnary (opcode : Opcode) : Interp Unit := do
  needStack 1 SCRIPT_ERR_INVALID_STACK_OPERATION
  let bn ← readDefaultNum flags 1
  let result ← ofAssert (unaryResult opcode bn)
  popstack
  pushBack (CScript.scriptNumSerialize result)

/-- The operators on two numbers. -/
def evalBinary (opcode : Opcode) : Interp Unit := do
  needStack 2 SCRIPT_ERR_INVALID_STACK_OPERATION
  let bn1 ← readDefaultNum flags 2
  let bn2 ← readDefaultNum flags 1
  let bn ← ofAssert (binaryResult opcode bn1 bn2)
  popstack
  popstack
  pushBack (CScript.scriptNumSerialize bn)
  if opcode = OP_NUMEQUALVERIFY then
    let vch ← stacktop 1
    verifyResult true (castToBool vch) SCRIPT_ERR_NUMEQUALVERIFY

/-- `OP_WITHIN`. -/
def evalWithin : Interp Unit := do
  needStack 3 SCRIPT_ERR_INVALID_STACK_OPERATION
  let bn1 ← readDefaultNum flags 3
  let bn2 ← readDefaultNum flags 2
  let bn3 ← readDefaultNum flags 1
  popstack
  popstack
  popstack
  pushBack (vchBool (decide (bn2 ≤ bn1) && decide (bn1 < bn3)))

def evalHash (opcode : Opcode) : Interp Unit := do
  needStack 1 SCRIPT_ERR_INVALID_STACK_OPERATION
  let vch ← stacktop 1
  popstack
  pushBack (hashResult crypto opcode vch)

/-- Push again the elements `stacktop(-i)` for the listed `i`. -/
def evalDup (n : ℕ) (is : List ℕ) : Interp Unit := do
  needStack n SCRIPT_ERR_INVALID_STACK_OPERATION
  let vchs ← is.mapM stacktop
  vchs.forM pushBack

/-- A block that does not reach the checker. The operand is what `GetOp` read; `r.pc` is the
iterator after it. -/
def evalBlock (fExec : Bool) (r : CScript.GetOpResult) : Block → Interp Unit
  | .pushNum =>
    pushBack (CScript.scriptNumSerialize ((r.opcodeRet.toNat : ℤ) - ((OP_1.toNat : ℤ) - 1)))
  | .nop => pure ()
  | .checkLockTimeVerify => evalCheckLockTimeVerify flags checker
  | .checkSequenceVerify => evalCheckSequenceVerify flags checker
  | .upgradableNop =>
    scriptErrorIf (hasFlag flags SCRIPT_VERIFY_DISCOURAGE_UPGRADABLE_NOPS) SCRIPT_ERR_DISCOURAGE_UPGRADABLE_NOPS
  | .ifNotIf => evalIf flags sigversion r.opcodeRet fExec
  | .opElse => modifyExec fun back => [!back]
  | .endIf => modifyExec fun _ => []
  | .verify => evalVerify
  | .opReturn => throw (.returned SCRIPT_ERR_OP_RETURN)
  | .toAltStack => evalToAltStack
  | .fromAltStack => evalFromAltStack
  | .drop2 => do
    needStack 2 SCRIPT_ERR_INVALID_STACK_OPERATION
    popstack
    popstack
  | .dup2 => evalDup 2 [2, 1]
  | .dup3 => evalDup 3 [3, 2, 1]
  | .over2 => evalDup 4 [4, 3]
  | .rot2 => do
    needStack 6 SCRIPT_ERR_INVALID_STACK_OPERATION
    let vch1 ← stacktop 6
    let vch2 ← stacktop 5
    eraseStack 6 4
    pushBack vch1
    pushBack vch2
  | .swap2 => do
    needStack 4 SCRIPT_ERR_INVALID_STACK_OPERATION
    swapStack 4 2
    swapStack 3 1
  | .ifDup => do
    needStack 1 SCRIPT_ERR_INVALID_STACK_OPERATION
    let vch ← stacktop 1
    if castToBool vch then pushBack vch
  | .depth => fun s => pushBack (CScript.scriptNumSerialize s.stack.length) s
  | .drop => do
    needStack 1 SCRIPT_ERR_INVALID_STACK_OPERATION
    popstack
  | .dup => evalDup 1 [1]
  | .nip => do
    needStack 2 SCRIPT_ERR_INVALID_STACK_OPERATION
    eraseStack 2 1
  | .over => evalDup 2 [2]
  | .pickRoll => evalPickRoll flags r.opcodeRet
  | .rot => do
    needStack 3 SCRIPT_ERR_INVALID_STACK_OPERATION
    swapStack 3 2
    swapStack 2 1
  | .swap => do
    needStack 2 SCRIPT_ERR_INVALID_STACK_OPERATION
    swapStack 2 1
  | .tuck => do
    needStack 2 SCRIPT_ERR_INVALID_STACK_OPERATION
    let vch ← stacktop 1
    insertStack 2 vch
  | .size => do
    needStack 1 SCRIPT_ERR_INVALID_STACK_OPERATION
    let vch ← stacktop 1
    pushBack (CScript.scriptNumSerialize vch.length)
  | .equal => evalEqual r.opcodeRet
  | .unary => evalUnary flags r.opcodeRet
  | .binary => evalBinary flags r.opcodeRet
  | .within => evalWithin flags
  | .hash => evalHash crypto r.opcodeRet
  | .codeSeparator => modify fun s => { s with pbegincodehash := r.pc }

/-- `checker.CheckSig`, which the meter counts. -/
def callCheckSig (vchSig vchPubKey : Bytes) (scriptCode : CScript) : Audit Bool := do
  charge
  ofAssert (checker.checkSig vchSig vchPubKey scriptCode sigversion)

/-- The script from the last code separator on, without the signatures where `sigversion` is
`SIGVERSION_BASE`. -/
def sigScriptCode (vchSigs : List Bytes) (pbegincodehash : Bytes) : CScript :=
  if sigversion = .SIGVERSION_BASE then
    vchSigs.foldl (fun scriptCode vchSig => (scriptCode.findAndDelete (CScript.pushData [] vchSig)).2)
      pbegincodehash
  else pbegincodehash

def checkEncodings (vchSig vchPubKey : Bytes) : Interp Unit := do
  ofReturned (checkSignatureEncoding crypto flags vchSig)
  ofReturned (checkPubKeyEncoding flags sigversion vchPubKey)

/-- The arguments of `OP_CHECKSIG`, with the script code that is signed. -/
def checkSigArgs : Interp (Bytes × Bytes × CScript) := do
  needStack 2 SCRIPT_ERR_INVALID_STACK_OPERATION
  let vchSig ← stacktop 2
  let vchPubKey ← stacktop 1
  let s ← get
  checkEncodings crypto flags sigversion vchSig vchPubKey
  return (vchSig, vchPubKey, sigScriptCode sigversion [vchSig] s.pbegincodehash)

def checkSigResult (opcode : Opcode) (vchSig : Bytes) (fSuccess : Bool) : Interp Unit := do
  scriptErrorIf (!fSuccess && hasFlag flags SCRIPT_VERIFY_NULLFAIL && vchSig.length != 0) SCRIPT_ERR_SIG_NULLFAIL
  popstack
  popstack
  pushBack (vchBool fSuccess)
  verifyResult (opcode == OP_CHECKSIGVERIFY) fSuccess SCRIPT_ERR_CHECKSIGVERIFY

def evalCheckSig (opcode : Opcode) : Audit Unit := do
  let args ← metered (checkSigArgs crypto flags sigversion)
  let fSuccess ← callCheckSig checker sigversion args.1 args.2.1 args.2.2
  metered (checkSigResult flags opcode args.1 fSuccess)

/-- What `OP_CHECKMULTISIG` reads before its loop over the keys. -/
structure MultisigArgs where
  nKeysCount : ℕ
  nSigsCount : ℕ
  scriptCode : CScript

def addOpCount (n : ℕ) : Interp Unit := modify fun s => { s with nOpCount := s.nOpCount + n }

def checkOpCount : Interp Unit := fun s =>
  scriptErrorIf (MAX_OPS_PER_SCRIPT < s.nOpCount) SCRIPT_ERR_OP_COUNT s

/-- `nKeysCount`, which counts towards the limit of operations. -/
def readKeysCount : Interp ℕ := do
  needStack 1 SCRIPT_ERR_INVALID_STACK_OPERATION
  let bn ← readDefaultNum flags 1
  let nKeysCount := CScriptNum.getint bn
  scriptErrorIf (nKeysCount < 0 ∨ (MAX_PUBKEYS_PER_MULTISIG : ℤ) < nKeysCount) SCRIPT_ERR_PUBKEY_COUNT
  addOpCount nKeysCount.toNat
  checkOpCount
  return nKeysCount.toNat

/-- `nSigsCount`, which lies below the keys. -/
def readSigsCount (nKeysCount : ℕ) : Interp ℕ := do
  needStack (2 + nKeysCount) SCRIPT_ERR_INVALID_STACK_OPERATION
  let bn ← readDefaultNum flags (2 + nKeysCount)
  let nSigsCount := CScriptNum.getint bn
  scriptErrorIf (nSigsCount < 0 ∨ (nKeysCount : ℤ) < nSigsCount) SCRIPT_ERR_SIG_COUNT
  needStack (3 + nKeysCount + nSigsCount.toNat) SCRIPT_ERR_INVALID_STACK_OPERATION
  return nSigsCount.toNat

def multisigArgs : Interp MultisigArgs := do
  let nKeysCount ← readKeysCount flags
  let nSigsCount ← readSigsCount flags nKeysCount
  let vchSigs ← (List.range nSigsCount).mapM fun k => stacktop (3 + nKeysCount + k)
  let s ← get
  return ⟨nKeysCount, nSigsCount, sigScriptCode sigversion vchSigs s.pbegincodehash⟩

/-- The loop over the keys, on `nKeysCount`, `ikey`, `nSigsCount` and `isig`; the result is
`fSuccess`. There are never more signatures left than keys, so no key is left only where no
signature is. -/
def multisigLoop (scriptCode : CScript) : ℕ → ℕ → ℕ → ℕ → Audit Bool
  | 0, _, nSigsCount, _ => pure (nSigsCount == 0)
  | nKeysCount + 1, ikey, nSigsCount, isig =>
    if nSigsCount = 0 then pure true
    else do
      let vchSig ← metered (stacktop isig)
      let vchPubKey ← metered (stacktop ikey)
      metered (checkEncodings crypto flags sigversion vchSig vchPubKey)
      let fOk ← callCheckSig checker sigversion vchSig vchPubKey scriptCode
      let nSigsLeft := if fOk then nSigsCount - 1 else nSigsCount
      if nKeysCount < nSigsLeft then pure false
      else multisigLoop scriptCode nKeysCount (ikey + 1) nSigsLeft (if fOk then isig + 1 else isig)

/-- `while (i-- > 1)`: pop the arguments, on the number of iterations left and `ikey2`. -/
def cleanUpStack (fSuccess : Bool) : ℕ → ℕ → Interp Unit
  | 0, _ => pure ()
  | i + 1, ikey2 => do
    let vch ← stacktop 1
    scriptErrorIf (!fSuccess && hasFlag flags SCRIPT_VERIFY_NULLFAIL && ikey2 == 0 && vch.length != 0)
      SCRIPT_ERR_SIG_NULLFAIL
    popstack
    cleanUpStack fSuccess i (ikey2 - 1)

/-- What `OP_CHECKMULTISIG` does with its result. -/
def multisigResult (opcode : Opcode) (nKeysCount nSigsCount : ℕ) (fSuccess : Bool) : Interp Unit := do
  cleanUpStack flags fSuccess (2 + nKeysCount + nSigsCount) (nKeysCount + 2)
  -- the extra argument that the opcode consumes
  needStack 1 SCRIPT_ERR_INVALID_STACK_OPERATION
  let vch ← stacktop 1
  scriptErrorIf (hasFlag flags SCRIPT_VERIFY_NULLDUMMY && vch.length != 0) SCRIPT_ERR_SIG_NULLDUMMY
  popstack
  pushBack (vchBool fSuccess)
  verifyResult (opcode == OP_CHECKMULTISIGVERIFY) fSuccess SCRIPT_ERR_CHECKMULTISIGVERIFY

def evalCheckMultisig (opcode : Opcode) : Audit Unit := do
  let args ← metered (multisigArgs flags sigversion)
  let fSuccess ← multisigLoop crypto flags checker sigversion args.scriptCode args.nKeysCount 2
    args.nSigsCount (3 + args.nKeysCount)
  metered (multisigResult flags opcode args.nKeysCount args.nSigsCount fSuccess)

/-- The `switch` of `EvalScript`. -/
def evalSwitch (fExec : Bool) (r : CScript.GetOpResult) : Audit Unit :=
  match switchLabel r.opcodeRet with
  | none => metered (throw (.returned SCRIPT_ERR_BAD_OPCODE))
  | some (.plain block) => metered (evalBlock crypto flags checker sigversion fExec r block)
  | some .checkSig => evalCheckSig crypto flags checker sigversion r.opcodeRet
  | some .checkMultisig => evalCheckMultisig crypto flags checker sigversion r.opcodeRet

/-- `OP_RESERVED` and the pushes do not count towards the limit of operations. -/
def countOp (opcode : Opcode) : Interp Unit :=
  if OP_16 < opcode then do
    addOpCount 1
    checkOpCount
  else pure ()

/-- What the loop does with an instruction before it is executed; the result is `fExec`. -/
def readInstruction (r : CScript.GetOpResult) : Interp Bool := do
  let s ← get
  scriptErrorIf (MAX_SCRIPT_ELEMENT_SIZE < r.vchRet.length) SCRIPT_ERR_PUSH_SIZE
  countOp r.opcodeRet
  scriptErrorIf (r.opcodeRet ∈ disabledOpcodes) SCRIPT_ERR_DISABLED_OPCODE
  return s.vfExec.all id

def evalPush (r : CScript.GetOpResult) : Interp Unit := do
  scriptErrorIf (fRequireMinimal flags && !checkMinimalPush r.vchRet r.opcodeRet) SCRIPT_ERR_MINIMALDATA
  pushBack r.vchRet

def checkStackSize : Interp Unit := fun s =>
  scriptErrorIf (MAX_STACK_SIZE < s.stack.length + s.altstack.length) SCRIPT_ERR_STACK_SIZE s

def execute (fExec : Bool) (r : CScript.GetOpResult) : Audit Unit :=
  if fExec && r.opcodeRet ≤ OP_PUSHDATA4 then metered (evalPush flags r)
  else if fExec || (OP_IF ≤ r.opcodeRet && r.opcodeRet ≤ OP_ENDIF) then
    evalSwitch crypto flags checker sigversion fExec r
  else pure ()

/-- One iteration of the loop, on the instruction that `GetOp` read. -/
def evalOp (r : CScript.GetOpResult) : Audit Unit := do
  let fExec ← metered (readInstruction r)
  execute crypto flags checker sigversion fExec r
  metered checkStackSize

/-- The loop of `EvalScript` and the test after it. An instruction that `GetOp` cannot read ends
the loop. -/
def evalOps (script : CScript) : Audit Unit := do
  metered (scriptErrorIf (MAX_SCRIPT_SIZE < script.length) SCRIPT_ERR_SCRIPT_SIZE)
  (CScript.scan script).ops.forM (evalOp crypto flags checker sigversion)
  metered (scriptErrorIf (!(CScript.scan script).complete) SCRIPT_ERR_BAD_OPCODE)
  metered fun s => scriptErrorIf (s.vfExec ≠ []) SCRIPT_ERR_UNBALANCED_CONDITIONAL s

/-- `catch (...)`. -/
def caught : Interrupt → Interrupt
  | .thrown _ => .returned SCRIPT_ERR_UNKNOWN_ERROR
  | e => e

/-- `EvalScript` on the stack that it is given: the stack that it leaves, with the number of calls
of `CheckSig` for state. -/
def evalScript (stack : List Bytes) (script : CScript) : EStateM Interrupt ℕ (List Bytes) := fun n =>
  match evalOps crypto flags checker sigversion script ⟨⟨stack, [], [], 0, script⟩, n⟩ with
  | .ok _ m => .ok m.state.stack m.spent
  | .error e m => .error (caught e) m.spent

end EvalScript

section Steps

variable {σ : Type} {s s' : σ}

lemma scriptErrorIf_eq_ok_iff {c : Prop} [Decidable c] {e : ScriptError} :
    scriptErrorIf c e s = .ok () s' ↔ ¬c ∧ s = s' := stopIf_eq_ok_iff

lemma state_of_ofScriptNum {α : Type} {x : Except ScriptNumError α} {a : α}
    (h : ofScriptNum x s = .ok a s') : x = .ok a ∧ s = s' := by
  cases x with
  | ok b =>
    obtain ⟨rfl, rfl⟩ : b = a ∧ s = s' := by simpa [ofScriptNum, pure, EStateM.pure] using h
    exact ⟨rfl, rfl⟩
  | error e => cases h

lemma state_of_ofReturned {α : Type} {x : Except ScriptError α} {a : α}
    (h : ofReturned x s = .ok a s') : x = .ok a ∧ s = s' := by
  cases x with
  | ok b =>
    obtain ⟨rfl, rfl⟩ : b = a ∧ s = s' := by simpa [ofReturned, pure, EStateM.pure] using h
    exact ⟨rfl, rfl⟩
  | error e => cases h

lemma state_of_ofAssert {α : Type} {x : Option α} {a : α} (h : ofAssert x s = .ok a s') :
    x = some a ∧ s = s' := by
  cases x with
  | some b =>
    obtain ⟨rfl, rfl⟩ : b = a ∧ s = s' := by simpa [ofAssert, pure, EStateM.pure] using h
    exact ⟨rfl, rfl⟩
  | none => cases h

end Steps

lemma state_of_needStack {n : ℕ} {e : ScriptError} {s s' : EvalState}
    (h : needStack n e s = .ok () s') : n ≤ s.stack.length ∧ s = s' := by
  obtain ⟨hlen, rfl⟩ := scriptErrorIf_eq_ok_iff.mp h
  exact ⟨Nat.le_of_not_lt hlen, rfl⟩

lemma state_of_stacktop {i : ℕ} {vch : Bytes} {s s' : EvalState} (h : stacktop i s = .ok vch s') :
    i ≤ s.stack.length ∧ s.stack[s.stack.length - i]? = some vch ∧ s = s' := by
  unfold stacktop topOf at h
  split_ifs at h with hi
  · cases hget : s.stack[s.stack.length - i]? with
    | none =>
      rw [hget] at h
      cases h
    | some b =>
      obtain ⟨rfl, rfl⟩ : b = vch ∧ s = s' := by simpa [hget, pure, EStateM.pure] using h
      exact ⟨hi, rfl, rfl⟩
  · cases h

lemma state_of_readNum {flags : UInt32} {i nMaxNumSize : ℕ} {bn : ℤ} {s s' : EvalState}
    (h : readNum flags i nMaxNumSize s = .ok bn s') :
    ∃ vch, s.stack[s.stack.length - i]? = some vch ∧
      CScriptNum.ofVch vch (fRequireMinimal flags) nMaxNumSize = .ok bn ∧ s = s' := by
  obtain ⟨vch, t, hvch, hbn⟩ := run_bind_eq_ok_iff.mp h
  obtain ⟨-, hget, rfl⟩ := state_of_stacktop hvch
  obtain ⟨hnum, rfl⟩ := state_of_ofScriptNum hbn
  exact ⟨vch, hget, hnum, rfl⟩

lemma state_of_checkOpCount {s s' : EvalState} (h : checkOpCount s = .ok () s') : s = s' :=
  (scriptErrorIf_eq_ok_iff.mp h).2

lemma state_of_checkStackSize {s s' : EvalState} (h : checkStackSize s = .ok () s') : s = s' :=
  (scriptErrorIf_eq_ok_iff.mp h).2

lemma state_of_readInstruction {r : CScript.GetOpResult} {fExec : Bool} {s s' : EvalState}
    (h : readInstruction r s = .ok fExec s') :
    fExec = s.vfExec.all id ∧ s' = { s with nOpCount := s'.nOpCount } := by
  obtain ⟨s₀, t, hget, h⟩ := run_bind_eq_ok_iff.mp h
  obtain ⟨rfl, rfl⟩ : s = s₀ ∧ s = t := by
    cases hget
    exact ⟨rfl, rfl⟩
  obtain ⟨_, t, hsize, h⟩ := run_bind_eq_ok_iff.mp h
  obtain ⟨-, rfl⟩ := scriptErrorIf_eq_ok_iff.mp hsize
  obtain ⟨_, t, hcount, h⟩ := run_bind_eq_ok_iff.mp h
  obtain ⟨_, t', hdisabled, h⟩ := run_bind_eq_ok_iff.mp h
  obtain ⟨-, rfl⟩ := scriptErrorIf_eq_ok_iff.mp hdisabled
  obtain ⟨rfl, rfl⟩ : s.vfExec.all id = fExec ∧ t = s' := by
    simpa [pure, EStateM.pure] using h
  refine ⟨rfl, ?_⟩
  unfold countOp at hcount
  split_ifs at hcount with hop
  · obtain ⟨_, t', hadd, hcheck⟩ := run_bind_eq_ok_iff.mp hcount
    obtain rfl := state_of_checkOpCount hcheck
    obtain rfl : { s with nOpCount := s.nOpCount + 1 } = t' := by
      cases hadd
      rfl
    rfl
  · obtain rfl : s = t := by simpa [pure, EStateM.pure] using hcount
    rfl

end MutableBitcoin
