import MutableBitcoin.SolverGrammar
import MutableBitcoin.ScriptNumEncoding

/-!
# Building and reading scripts

`operator<<` of `CScript` and the loop over `GetOp` with the widths of the code: an index into a
`prevector` and the difference of two of its iterators are `int32_t`. A read behind the end of the
script, an insertion behind the last index and a signed overflow are `none`.
-/

namespace MutableBitcoin
open Lib Opcode List Nat

namespace CScript

/-! ### Reading -/

/-- What a call of `GetOp2` leaves, with the iterator as its place in the script. -/
structure OpRead where
  ok : Bool
  opcodeRet : Opcode
  vchRet : Bytes
  pc : ℕ
deriving DecidableEq

/-- `end() - pc` in the `difference_type` of the iterators. -/
def endMinus (script : CScript) (pc : ℕ) : ℤ := Int.bmod ((script.length : ℤ) - pc) (2 ^ 32)

/-- The bytes at `pc`, where the script has them. -/
def bytesAt (script : CScript) (pc n : ℕ) : Option Bytes :=
  if pc + n ≤ script.length then some ((script.drop pc).take n) else none

def operandAt (script : CScript) (opcode : Opcode) (nSize pc : ℕ) : Option OpRead :=
  let left := endMinus script pc
  if left < 0 ∨ left.toNat < nSize then some ⟨false, OP_INVALIDOPCODE, [], pc⟩
  else do
    let vch ← bytesAt script pc nSize
    return ⟨true, opcode, vch, pc + nSize⟩

/-- `GetOp2` at a place of the script. -/
def getOpAt (script : CScript) (pc : ℕ) : Option OpRead :=
  if script.length ≤ pc then some ⟨false, OP_INVALIDOPCODE, [], pc⟩
  else if endMinus script pc < 1 then some ⟨false, OP_INVALIDOPCODE, [], pc⟩
  else do
    let opcode ← script[pc]?
    if opcode ≤ OP_PUSHDATA4 then
      if opcode < OP_PUSHDATA1 then operandAt script opcode opcode.toNat (pc + 1)
      else
        let nBytes : ℕ := if opcode = OP_PUSHDATA1 then 1 else if opcode = OP_PUSHDATA2 then 2 else 4
        if endMinus script (pc + 1) < nBytes then return ⟨false, OP_INVALIDOPCODE, [], pc + 1⟩
        else
          let size ← bytesAt script (pc + 1) nBytes
          operandAt script opcode (leValue size) (pc + 1 + nBytes)
    else return ⟨true, opcode, [], pc + 1⟩

/-- The successful calls of a loop over `GetOp`, the place where they ended and the call that
failed there. -/
structure Reading where
  ops : List OpRead
  pc : ℕ
  failed : OpRead
deriving DecidableEq

/-- `while (GetOp(pc, opcode, vch))`, within a number of calls. -/
def getOps (script : CScript) : ℕ → ℕ → Option Reading
  | 0, _ => none
  | fuel + 1, pc => do
    let r ← getOpAt script pc
    if r.ok then
      let rest ← getOps script fuel r.pc
      return ⟨r :: rest.ops, rest.pc, rest.failed⟩
    else return ⟨[], pc, r⟩

def consumed (script : CScript) : ℕ → List OpRead → List Bytes
  | _, [] => []
  | pc, r :: ops => (script.drop pc).take (r.pc - pc) :: consumed script r.pc ops

/-! ### Building -/

/-- The indices of a `prevector` are `int32_t`: `item_ptr` reaches no element from 2³¹ on. -/
def insertEnd (script : CScript) (bs : Bytes) : Option CScript :=
  if script.length + bs.length ≤ 2 ^ 31 then some (script ++ bs) else none

/-- `CScriptNum::serialize`, where `-value` does not overflow. -/
def scriptNumSerializeInt64 (value : ℤ) : Option Bytes :=
  if value = INT64_MIN then none else some (scriptNumSerialize value)

end CScript

/-- What is appended to a script with `operator<<`. -/
inductive ScriptItem where
  | opcode (opcode : Opcode)
  | int64 (n : ℤ)
  | bytes (b : Bytes)
deriving DecidableEq

namespace CScript

/-- `script << b`. -/
def shlBytes (script : CScript) (b : Bytes) : Option CScript :=
  if b.length < OP_PUSHDATA1.toNat then do
    let script ← insertEnd script [UInt8.ofNat b.length]
    insertEnd script b
  else if b.length ≤ 0xff then do
    let script ← insertEnd script [OP_PUSHDATA1]
    let script ← insertEnd script [UInt8.ofNat b.length]
    insertEnd script b
  else if b.length ≤ 0xffff then do
    let script ← insertEnd script [OP_PUSHDATA2]
    let script ← insertEnd script (leBytes 2 b.length)
    insertEnd script b
  else do
    let script ← insertEnd script [OP_PUSHDATA4]
    let script ← insertEnd script (leBytes 4 b.length)
    insertEnd script b

/-- `push_int64`. -/
def shlInt64 (script : CScript) (n : ℤ) : Option CScript :=
  if n = -1 ∨ (1 ≤ n ∧ n ≤ 16) then insertEnd script [UInt8.ofNat (n + (OP_1.toNat - 1)).toNat]
  else if n = 0 then insertEnd script [OP_0]
  else do
    let b ← scriptNumSerializeInt64 n
    shlBytes script b

def shl (script : CScript) : ScriptItem → Option CScript
  | .opcode opcode => insertEnd script [opcode]
  | .int64 n => shlInt64 script n
  | .bytes b => shlBytes script b

def build (items : List ScriptItem) : Option CScript := items.foldlM shl []

end CScript

namespace ScriptItem

/-- An opcode that is no push, a value of `int64_t`, or a vector whose size fits 32 bits. -/
def WellFormed : ScriptItem → Prop
  | opcode op => OP_PUSHDATA4 < op
  | int64 n => INT64_MIN ≤ n ∧ n ≤ INT64_MAX
  | bytes b => b.length < 2 ^ 32

def pushOpcode (b : Bytes) : Opcode :=
  if b.length < 76 then UInt8.ofNat b.length
  else if b.length ≤ 0xff then OP_PUSHDATA1
  else if b.length ≤ 0xffff then OP_PUSHDATA2
  else OP_PUSHDATA4

/-- The opcode and the operand that an item stands for. -/
def read : ScriptItem → Opcode × Bytes
  | opcode op => (op, [])
  | int64 n =>
    if n = -1 ∨ (1 ≤ n ∧ n ≤ 16) then (UInt8.ofNat (n + 80).toNat, [])
    else (pushOpcode (CScript.scriptNumSerialize n), CScript.scriptNumSerialize n)
  | bytes b => (pushOpcode b, b)

def pushSize (b : Bytes) : ℕ :=
  (if b.length < 76 then 1 else if b.length ≤ 0xff then 2 else if b.length ≤ 0xffff then 3 else 5) +
    b.length

def size : ScriptItem → ℕ
  | opcode _ => 1
  | int64 n => if n = -1 ∨ (1 ≤ n ∧ n ≤ 16) then 1 else pushSize (CScript.scriptNumSerialize n)
  | bytes b => pushSize b

end ScriptItem

open CScript

/-! ### Calls stay inside the script -/

section Calls

variable {script : CScript} {pc : ℕ}

lemma endMinus_le (h : pc ≤ script.length) : endMinus script pc ≤ (script.length : ℤ) - pc := by
  unfold endMinus
  rw [Int.bmod_def]
  split_ifs <;> omega

lemma endMinus_eq (h : pc ≤ script.length) (hsize : script.length < 2 ^ 31) :
    endMinus script pc = (script.length : ℤ) - pc := by
  unfold endMinus
  rw [Int.bmod_def]
  split_ifs <;> omega

lemma bytesAt_of_le {n : ℕ} (h : pc + n ≤ script.length) :
    bytesAt script pc n = some ((script.drop pc).take n) := if_pos h

/-- What holds of a call from a place inside the script: no read is behind the end, and the iterator
moves on by at least one byte if the call succeeds. -/
def Stays (script : CScript) (pc : ℕ) (r : OpRead) : Prop :=
  pc ≤ r.pc ∧ r.pc ≤ script.length ∧ (r.ok = true → pc < r.pc)

lemma operandAt_stays (opcode : Opcode) (nSize : ℕ) {start : ℕ} (hstart : start < pc)
    (h : pc ≤ script.length) :
    ∃ r, operandAt script opcode nSize pc = some r ∧ Stays script start r := by
  have hle := endMinus_le h
  unfold operandAt
  dsimp only
  split_ifs with hshort
  · exact ⟨_, rfl, hstart.le, h, nofun⟩
  · have hfits : pc + nSize ≤ script.length := by omega
    rw [bytesAt_of_le hfits]
    exact ⟨_, rfl, Nat.le_add_right_of_le hstart.le, hfits, fun _ => Nat.lt_add_right _ hstart⟩

lemma getOpAt_stays (h : pc ≤ script.length) :
    ∃ r, getOpAt script pc = some r ∧ Stays script pc r := by
  unfold getOpAt
  split_ifs with hend hdiff
  · exact ⟨_, rfl, le_rfl, h, nofun⟩
  · exact ⟨_, rfl, le_rfl, h, nofun⟩
  have hlt : pc < script.length := by omega
  rw [getElem?_eq_getElem hlt, Option.bind_eq_bind, Option.bind_some]
  by_cases hpush : script[pc] ≤ OP_PUSHDATA4
  · rw [if_pos hpush]
    by_cases hdirect : script[pc] < OP_PUSHDATA1
    · rw [if_pos hdirect]
      exact operandAt_stays _ _ (lt_succ_self pc) hlt
    · rw [if_neg hdirect]
      have hle := @endMinus_le script (pc + 1) hlt
      generalize (if script[pc] = OP_PUSHDATA1 then 1 else if script[pc] = OP_PUSHDATA2 then 2 else 4) =
        nBytes
      dsimp only
      split_ifs with hshort
      · exact ⟨_, rfl, le_succ pc, hlt, nofun⟩
      · have hfits : pc + 1 + nBytes ≤ script.length := by omega
        rw [bytesAt_of_le hfits, Option.bind_eq_bind, Option.bind_some]
        exact operandAt_stays _ _ (by omega) hfits
  · rw [if_neg hpush]
    exact ⟨_, rfl, le_succ pc, hlt, fun _ => lt_succ_self pc⟩

lemma getOps_stays {fuel : ℕ} (h : pc ≤ script.length) (hfuel : script.length - pc < fuel) :
    ∃ reading, getOps script fuel pc = some reading ∧ pc ≤ reading.pc ∧
      reading.pc ≤ script.length ∧ reading.failed.pc ≤ script.length ∧
      (consumed script pc reading.ops).flatten = (script.drop pc).take (reading.pc - pc) := by
  induction fuel generalizing pc with
  | zero => omega
  | succ fuel ih =>
    obtain ⟨r, hr, hpc, hlen, hlt⟩ := getOpAt_stays h
    rw [getOps, hr, Option.bind_eq_bind, Option.bind_some]
    by_cases hok : r.ok = true
    · have hmove := hlt hok
      obtain ⟨rest, hrest, hle, hin, hfailed, hbytes⟩ := ih hlen (by omega)
      rw [if_pos hok, hrest]
      refine ⟨_, rfl, by dsimp only; omega, hin, hfailed, ?_⟩
      -- the bytes of the first call, then those of the others
      have hsplit : rest.pc - pc = (r.pc - pc) + (rest.pc - r.pc) := by omega
      have hdrop : (script.drop pc).drop (r.pc - pc) = script.drop r.pc := by
        rw [drop_drop]
        congr 1
        omega
      dsimp only
      rw [consumed, flatten_cons, hbytes, hsplit, take_add, hdrop]
    · rw [if_neg hok]
      exact ⟨_, rfl, le_rfl, h, hlen, by simp [consumed]⟩

end Calls

/-! ### Items are read back -/

section RoundTrip

def OpRead.ofResult (script : CScript) (r : GetOpResult) : OpRead :=
  ⟨r.ok, r.opcodeRet, r.vchRet, script.length - r.pc.length⟩

lemma operandAt_eq {script : CScript} {pc : ℕ} (hsize : script.length < 2 ^ 31)
    (h : pc ≤ script.length) (opcode : Opcode) (nSize : ℕ) :
    operandAt script opcode nSize pc =
      some (OpRead.ofResult script (getOperand opcode nSize (script.drop pc))) := by
  have hdiff := endMinus_eq h hsize
  have hlength : (script.drop pc).length = script.length - pc := length_drop
  unfold operandAt getOperand OpRead.ofResult
  dsimp only
  rw [hdiff]
  by_cases hshort : script.length - pc < nSize
  · rw [if_pos (by omega), if_pos (by omega), hlength, Nat.sub_sub_self h]
  · rw [if_neg (by omega), if_neg (by omega), bytesAt_of_le (by omega)]
    simp only [Option.bind_eq_bind, Option.bind_some, length_drop]
    rw [show script.length - (script.length - pc - nSize) = pc + nSize by omega]
    rfl

lemma getOpAt_eq {script : CScript} {pc : ℕ} (hsize : script.length < 2 ^ 31)
    (h : pc ≤ script.length) :
    getOpAt script pc = some (OpRead.ofResult script (getOp2 (script.drop pc))) := by
  unfold getOpAt
  by_cases hend : script.length ≤ pc
  · obtain rfl : pc = script.length := by omega
    rw [if_pos hend, drop_length]
    rfl
  have hlt : pc < script.length := by omega
  have hdiff := endMinus_eq h hsize
  have hnext := @endMinus_eq script (pc + 1) hlt hsize
  have hrest : script.length - (script.drop (pc + 1)).length = pc + 1 := by
    rw [length_drop]
    omega
  rw [if_neg hend, if_neg (by omega), getElem?_eq_getElem hlt, Option.bind_eq_bind,
    Option.bind_some, drop_eq_getElem_cons hlt, getOp2]
  by_cases hpush : script[pc] ≤ OP_PUSHDATA4
  · rw [if_pos hpush, if_pos hpush]
    by_cases hdirect : script[pc] < OP_PUSHDATA1
    · rw [if_pos hdirect, if_pos hdirect]
      exact operandAt_eq hsize hlt _ _
    · rw [if_neg hdirect, if_neg hdirect]
      generalize (if script[pc] = OP_PUSHDATA1 then 1 else if script[pc] = OP_PUSHDATA2 then 2 else 4) =
        nBytes
      dsimp only
      rw [hnext, length_drop]
      by_cases hshort : script.length - (pc + 1) < nBytes
      · rw [if_pos (by omega), if_pos hshort, OpRead.ofResult, hrest]
        rfl
      · have hfits : pc + 1 + nBytes ≤ script.length := by omega
        rw [if_neg (by omega), if_neg hshort, bytesAt_of_le hfits, Option.bind_eq_bind,
          Option.bind_some, drop_drop]
        exact operandAt_eq hsize hfits _ _
  · rw [if_neg hpush, if_neg hpush, OpRead.ofResult, hrest]
    rfl

lemma getOpAt_instruction {before instr rest data : Bytes} {opcode : Opcode}
    (h : Instruction instr opcode data) (hsize : (before ++ (instr ++ rest)).length < 2 ^ 31) :
    getOpAt (before ++ (instr ++ rest)) before.length =
      some ⟨true, opcode, data, (before ++ instr).length⟩ := by
  rw [getOpAt_eq hsize (by simp), drop_left, h.getOp2_append, OpRead.ofResult]
  simp only [length_append]
  congr 2
  omega

lemma getOps_instructions {instrs : List Bytes} {ops : List (Opcode × Bytes)}
    (h : List.Forall₂ (fun instr op => Instruction instr op.1 op.2) instrs ops) (before : Bytes)
    (hsize : (before ++ instrs.flatten).length < 2 ^ 31) {fuel : ℕ}
    (hfuel : instrs.flatten.length < fuel) :
    ∃ reading, getOps (before ++ instrs.flatten) fuel before.length = some reading ∧
      reading.ops.map (fun r => (r.opcodeRet, r.vchRet)) = ops ∧
      reading.pc = (before ++ instrs.flatten).length := by
  induction h generalizing before fuel with
  | nil =>
    obtain ⟨fuel, rfl⟩ := Nat.exists_eq_add_of_lt hfuel
    simp [getOps, getOpAt]
  | @cons instr op instrs ops hinstr _ ih =>
    have hpos := hinstr.length_pos
    simp only [flatten_cons] at hsize hfuel ⊢
    cases fuel with
    | zero => omega
    | succ fuel =>
      rw [length_append] at hfuel
      obtain ⟨rest, hrest, hops, hpc⟩ := ih (before ++ instr) (by rwa [append_assoc])
        (show instrs.flatten.length < fuel by omega)
      rw [append_assoc] at hrest hpc
      rw [getOps, getOpAt_instruction hinstr hsize, Option.bind_eq_bind, Option.bind_some, if_pos rfl,
        hrest]
      exact ⟨_, rfl, by rw [map_cons, hops], hpc⟩

end RoundTrip

/-! ### What items are built into -/

namespace ScriptItem

def pushBytes (b : Bytes) : Bytes :=
  if b.length < 76 then UInt8.ofNat b.length :: b
  else if b.length ≤ 0xff then OP_PUSHDATA1 :: (leBytes 1 b.length ++ b)
  else if b.length ≤ 0xffff then OP_PUSHDATA2 :: (leBytes 2 b.length ++ b)
  else OP_PUSHDATA4 :: (leBytes 4 b.length ++ b)

def encoded : ScriptItem → Bytes
  | opcode op => [op]
  | int64 n =>
    if n = -1 ∨ (1 ≤ n ∧ n ≤ 16) then [UInt8.ofNat (n + 80).toNat]
    else pushBytes (scriptNumSerialize n)
  | bytes b => pushBytes b

lemma length_pushBytes (b : Bytes) : (pushBytes b).length = pushSize b := by
  unfold pushBytes pushSize
  split_ifs <;> simp only [length_cons, length_append, length_leBytes] <;> omega

lemma length_encoded (item : ScriptItem) : item.encoded.length = item.size := by
  cases item with
  | opcode op => rfl
  | int64 n =>
    unfold encoded size
    dsimp only
    split_ifs
    · rfl
    · exact length_pushBytes _
  | bytes b => exact length_pushBytes b

lemma instruction_pushBytes {b : Bytes} (h : b.length < 2 ^ 32) :
    Instruction (pushBytes b) (pushOpcode b) b := by
  unfold pushBytes pushOpcode
  split_ifs with hdirect hone htwo
  · exact .direct hdirect
  · exact .pushdata1 (by omega)
  · exact .pushdata2 (by omega)
  · exact .pushdata4 h

lemma lt_of_small {n : ℤ} (h : n = -1 ∨ (1 ≤ n ∧ n ≤ 16)) :
    OP_PUSHDATA4 < UInt8.ofNat (n + 80).toNat := by
  have hnat : (UInt8.ofNat (n + 80).toNat).toNat = (n + 80).toNat := by
    rw [UInt8.toNat_ofNat', mod_eq_of_lt (by omega)]
  rw [UInt8.lt_iff_toNat_lt, hnat]
  exact (show 78 < (n + 80).toNat by omega)

lemma instruction_encoded {item : ScriptItem} (h : item.WellFormed) :
    Instruction item.encoded item.read.1 item.read.2 := by
  cases item with
  | opcode op => exact .other h
  | int64 n =>
    unfold encoded read
    dsimp only
    split_ifs with hsmall
    · exact .other (lt_of_small hsmall)
    · have hbound : n.natAbs < 256 ^ 8 := by
        obtain ⟨hmin, hmax⟩ := h
        unfold INT64_MIN at hmin
        unfold INT64_MAX at hmax
        omega
      have hlength := length_scriptNumSerialize_le hbound
      exact instruction_pushBytes (by omega)
  | bytes b => exact instruction_pushBytes h

end ScriptItem

section Build

lemma insertEnd_bind (script a b : Bytes) :
    (insertEnd script a).bind (fun s => insertEnd s b) = insertEnd script (a ++ b) := by
  unfold insertEnd
  rw [length_append]
  by_cases hfirst : script.length + a.length ≤ 2 ^ 31
  · rw [if_pos hfirst, Option.bind_some, length_append, append_assoc, add_assoc]
  · rw [if_neg hfirst, if_neg (by omega), Option.bind_none]

lemma shlBytes_eq (script : CScript) (b : Bytes) :
    shlBytes script b = insertEnd script (ScriptItem.pushBytes b) := by
  have hsize : OP_PUSHDATA1.toNat = 76 := rfl
  unfold shlBytes ScriptItem.pushBytes
  rw [hsize]
  simp only [Option.bind_eq_bind, insertEnd_bind]
  split_ifs <;> rfl

lemma shl_eq (script : CScript) {item : ScriptItem} (h : item ≠ .int64 INT64_MIN) :
    shl script item = insertEnd script item.encoded := by
  cases item with
  | opcode op => rfl
  | bytes b => exact shlBytes_eq script b
  | int64 n =>
    have hone : (OP_1.toNat : ℤ) - 1 = 80 := rfl
    have hmin : n ≠ INT64_MIN := fun hn => h (congrArg ScriptItem.int64 hn)
    unfold shl shlInt64 ScriptItem.encoded
    dsimp only
    rw [hone]
    by_cases hsmall : n = -1 ∨ (1 ≤ n ∧ n ≤ 16)
    · rw [if_pos hsmall, if_pos hsmall]
    rw [if_neg hsmall, if_neg hsmall]
    by_cases hzero : n = 0
    · subst hzero
      rfl
    · have hserialize : scriptNumSerializeInt64 n = some (scriptNumSerialize n) := if_neg hmin
      rw [if_neg hzero, hserialize]
      exact shlBytes_eq script _

lemma foldlM_shl_eq {items : List ScriptItem} (h : ScriptItem.int64 INT64_MIN ∉ items)
    {script : CScript} (hsize : script.length ≤ 2 ^ 31) :
    items.foldlM shl script = insertEnd script (items.map ScriptItem.encoded).flatten := by
  induction items generalizing script with
  | nil =>
    rw [foldlM_nil, map_nil, flatten_nil, insertEnd, if_pos (by simpa using hsize),
      append_nil]
    rfl
  | cons item items ih =>
    obtain ⟨hitem, hrest⟩ := not_or.mp (fun hor => h (mem_cons.mpr hor))
    rw [foldlM_cons, shl_eq script (Ne.symm hitem), map_cons, flatten_cons,
      ← insertEnd_bind, Option.bind_eq_bind]
    unfold insertEnd
    split_ifs with hfits
    · have hlength : (script ++ item.encoded).length ≤ 2 ^ 31 := by rwa [length_append]
      rw [Option.bind_some, Option.bind_some, ih hrest hlength]
      rfl
    · rfl

lemma foldlM_shl_eq_none {items : List ScriptItem} (h : ScriptItem.int64 INT64_MIN ∈ items)
    (script : CScript) : items.foldlM shl script = none := by
  induction items generalizing script with
  | nil => exact absurd h not_mem_nil
  | cons item items ih =>
    rw [foldlM_cons]
    obtain rfl | hrest := mem_cons.mp h
    · have hnone : shl script (.int64 INT64_MIN) = none := by
        unfold shl shlInt64 scriptNumSerializeInt64
        dsimp only
        rw [if_neg (by decide), if_neg (by decide), if_pos rfl]
        rfl
      rw [hnone]
      rfl
    · cases shl script item with
      | none => rfl
      | some s => exact ih hrest s

end Build

/-- What is built from the items is read as the items. -/
def RoundTrips (items : List ScriptItem) : Prop :=
  ∃ script reading, build items = some script ∧
    getOps script (script.length + 1) 0 = some reading ∧
    reading.ops.map (fun r => (r.opcodeRet, r.vchRet)) = items.map ScriptItem.read ∧
    reading.pc = script.length

def totalSize (items : List ScriptItem) : ℕ := (items.map ScriptItem.size).sum

lemma length_flatten_encoded (items : List ScriptItem) :
    (items.map ScriptItem.encoded).flatten.length = totalSize items := by
  rw [length_flatten, map_map, totalSize]
  congr 1
  exact map_congr_left fun item _ => item.length_encoded

lemma getOps_of_size {script : CScript} (h : script.length = 2 ^ 31) (fuel : ℕ) :
    getOps script (fuel + 1) 0 = some ⟨[], 0, ⟨false, OP_INVALIDOPCODE, [], 0⟩⟩ := by
  have hdiff : endMinus script 0 < 1 := by
    rw [endMinus, h]
    decide
  rw [getOps, getOpAt, if_neg (by omega), if_pos hdiff]
  rfl

lemma roundTrips_iff {items : List ScriptItem} (h : ∀ item ∈ items, item.WellFormed) :
    RoundTrips items ↔ totalSize items < 2 ^ 31 ∧ ScriptItem.int64 INT64_MIN ∉ items := by
  have hlength := length_flatten_encoded items
  constructor
  · rintro ⟨script, reading, hbuild, hread, hops, -⟩
    have hmin : ScriptItem.int64 INT64_MIN ∉ items := by
      intro hmem
      rw [build, foldlM_shl_eq_none hmem] at hbuild
      cases hbuild
    refine ⟨?_, hmin⟩
    rw [build, foldlM_shl_eq hmin (zero_le _), insertEnd, length_nil, nil_append,
      zero_add, hlength] at hbuild
    split_ifs at hbuild with hfits
    cases hbuild
    by_contra hge
    have hsize : (items.map ScriptItem.encoded).flatten.length = 2 ^ 31 := by omega
    rw [getOps_of_size hsize] at hread
    cases hread
    -- nothing is read, so there are no items, and they take no bytes
    have hnil : items = [] := by simpa using hops.symm
    rw [hnil, totalSize, map_nil, sum_nil] at hge
    omega
  · rintro ⟨hsize, hmin⟩
    have hforall : List.Forall₂ (fun instr op => Instruction instr op.1 op.2)
        (items.map ScriptItem.encoded) (items.map ScriptItem.read) := by
      rw [forall₂_map_left_iff, forall₂_map_right_iff, forall₂_same]
      exact fun item hitem => ScriptItem.instruction_encoded (h item hitem)
    obtain ⟨reading, hread, hops, hpc⟩ := getOps_instructions hforall []
      (by rw [nil_append, hlength]; exact hsize) (lt_succ_self _)
    refine ⟨(items.map ScriptItem.encoded).flatten, reading, ?_, hread, hops, hpc⟩
    rw [build, foldlM_shl_eq hmin (zero_le _), insertEnd, length_nil, hlength,
      if_pos (by omega), nil_append]

/-- Items appended to an empty script are read back in order up to the end of the script exactly if
they take fewer than 2³¹ bytes together and the least `int64_t` is not among them. From the first
byte of any script the calls stay inside it, end within one call for each byte, and have consumed
a prefix of it. -/
theorem script_items_read_back :
    (∀ items : List ScriptItem, (∀ item ∈ items, item.WellFormed) →
      (RoundTrips items ↔ totalSize items < 2 ^ 31 ∧ ScriptItem.int64 INT64_MIN ∉ items)) ∧
    ∀ script : CScript, ∃ reading, getOps script (script.length + 1) 0 = some reading ∧
      reading.pc ≤ script.length ∧ reading.failed.pc ≤ script.length ∧
      (consumed script 0 reading.ops).flatten = script.take reading.pc := by
  refine ⟨fun items h => roundTrips_iff h, fun script => ?_⟩
  obtain ⟨reading, hread, -, hpc, hfailed, hbytes⟩ :=
    getOps_stays (zero_le script.length) (lt_succ_self _)
  exact ⟨reading, hread, hpc, hfailed, by simpa using hbytes⟩

theorem script_items_read_back_small :
    RoundTrips [.opcode OP_CHECKSIG, .int64 (-1), .int64 1000, .bytes [1, 2, 3]] :=
  (script_items_read_back.1 [.opcode OP_CHECKSIG, .int64 (-1), .int64 1000, .bytes [1, 2, 3]] (by
    intro item hitem
    simp only [mem_cons, not_mem_nil, or_false] at hitem
    rcases hitem with rfl | rfl | rfl | rfl
    · exact (by decide : OP_PUSHDATA4 < OP_CHECKSIG)
    · exact (by decide : INT64_MIN ≤ -1 ∧ (-1 : ℤ) ≤ INT64_MAX)
    · exact (by decide : INT64_MIN ≤ 1000 ∧ (1000 : ℤ) ≤ INT64_MAX)
    · exact (by decide : [1, 2, 3].length < 2 ^ 32))).mpr ⟨by decide, by decide⟩

lemma not_roundTrips_of_length {b : Bytes} (h : b.length = 2 ^ 31 - 5) : ¬RoundTrips [.bytes b] := by
  have hwell : ∀ item ∈ [ScriptItem.bytes b], item.WellFormed := by
    intro item hitem
    obtain rfl := mem_singleton.mp hitem
    exact (show b.length < 2 ^ 32 by omega)
  have htotal : totalSize [.bytes b] = 2 ^ 31 := by
    have hpush : ScriptItem.pushSize b = 5 + b.length := by
      unfold ScriptItem.pushSize
      rw [if_neg (by omega), if_neg (by omega), if_neg (by omega)]
    change ScriptItem.pushSize b + 0 = _
    omega
  rw [roundTrips_iff hwell, htotal]
  exact fun hsize => absurd hsize.1 (lt_irrefl _)

theorem script_items_read_back_long : ¬RoundTrips [.bytes (List.replicate (2 ^ 31 - 5) 0)] :=
  not_roundTrips_of_length length_replicate

end MutableBitcoin
