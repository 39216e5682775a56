import MutableBitcoin.Standard

/-!
# What `Solver` accepts

The scripts of each kind, and that `Solver` accepts exactly these. Every step of the comparison with
a template takes one instruction off the script.
-/

namespace MutableBitcoin
open Lib Opcode TxnOutType List CScript Option Nat

/-- The bytes of an instruction, its opcode and its data. -/
inductive Instruction : Bytes → Opcode → Bytes → Prop where
  | direct {data : Bytes} (h : data.length < 76) :
    Instruction (UInt8.ofNat data.length :: data) (UInt8.ofNat data.length) data
  | pushdata1 {data : Bytes} (h : data.length < 256 ^ 1) :
    Instruction (OP_PUSHDATA1 :: (leBytes 1 data.length ++ data)) OP_PUSHDATA1 data
  | pushdata2 {data : Bytes} (h : data.length < 256 ^ 2) :
    Instruction (OP_PUSHDATA2 :: (leBytes 2 data.length ++ data)) OP_PUSHDATA2 data
  | pushdata4 {data : Bytes} (h : data.length < 256 ^ 4) :
    Instruction (OP_PUSHDATA4 :: (leBytes 4 data.length ++ data)) OP_PUSHDATA4 data
  | other {opcode : Opcode} (h : OP_PUSHDATA4 < opcode) : Instruction [opcode] opcode []

/-- A push of `data`. -/
def PushesData (push data : Bytes) : Prop := ∃ opcode ≤ OP_PUSHDATA4, Instruction push opcode data

/-- A push of the length of a key. -/
def PushesKey (push key : Bytes) : Prop := PushesData push key ∧ 33 ≤ key.length ∧ key.length ≤ 65

/-- A sequence of instructions none of which is above `OP_16`. -/
def PushSequence (script : CScript) : Prop :=
  ∃ pushes : List Bytes, script = pushes.flatten ∧
    ∀ push ∈ pushes, ∃ opcode data, Instruction push opcode data ∧ opcode ≤ OP_16

def smallInteger (n : ℕ) : Opcode := if n = 0 then OP_0 else UInt8.ofNat (n + 80)

/-- The scripts of each type, with the solutions. -/
inductive StandardScript : CScript → TxnOutType → List Bytes → Prop where
  | pubkey {push key : Bytes} (hpush : PushesKey push key) :
    StandardScript (push ++ [OP_CHECKSIG]) TX_PUBKEY [key]
  | pubkeyhash {push hash : Bytes} (hpush : PushesData push hash) (hlength : hash.length = 20) :
    StandardScript ([OP_DUP, OP_HASH160] ++ push ++ [OP_EQUALVERIFY, OP_CHECKSIG]) TX_PUBKEYHASH [hash]
  | multisig {m : ℕ} {pushes keys : List Bytes} (hm : 1 ≤ m) (hle : m ≤ keys.length)
    (hn : keys.length ≤ 16) (hpushes : List.Forall₂ PushesKey pushes keys) :
    StandardScript ([smallInteger m] ++ pushes.flatten ++ [smallInteger keys.length, OP_CHECKMULTISIG])
      TX_MULTISIG ([[UInt8.ofNat m]] ++ keys ++ [[UInt8.ofNat keys.length]])
  | scripthash {hash : Bytes} (hlength : hash.length = 20) :
    StandardScript ([OP_HASH160, 20] ++ hash ++ [OP_EQUAL]) TX_SCRIPTHASH [hash]
  | nullData {pushes : Bytes} (hpushes : PushSequence pushes) :
    StandardScript (OP_RETURN :: pushes) TX_NULL_DATA []
  | witnessKeyhash {program : Bytes} (hlength : program.length = 20) :
    StandardScript (OP_0 :: 20 :: program) TX_WITNESS_V0_KEYHASH [program]
  | witnessScripthash {program : Bytes} (hlength : program.length = 32) :
    StandardScript (OP_0 :: 32 :: program) TX_WITNESS_V0_SCRIPTHASH [program]

/-! ### Instructions -/

lemma leBytes_take {n : ℕ} {pc : Bytes} (h : n ≤ pc.length) : leBytes n (leValue (pc.take n)) = pc.take n := by
  have hlength : (pc.take n).length = n := by rw [length_take, min_eq_left h]
  have hlt : leValue (pc.take n) < 256 ^ n := by
    have hbound := leValue_lt (pc.take n)
    rwa [hlength] at hbound
  exact leValue_injOn (by rw [length_leBytes, hlength]) (leValue_leBytes hlt)

namespace Instruction

variable {instr data : Bytes} {opcode : Opcode}

lemma length_pos (h : Instruction instr opcode data) : 0 < instr.length := by
  cases h <;> exact succ_pos _

lemma getOp2_sized_append {n : ℕ} (hle : opcode ≤ OP_PUSHDATA4) (hge : ¬opcode < OP_PUSHDATA1)
    (hn : n = if opcode = OP_PUSHDATA1 then 1 else if opcode = OP_PUSHDATA2 then 2 else 4)
    (hdata : data.length < 256 ^ n) (rest : Bytes) :
    getOp2 (opcode :: (leBytes n data.length ++ data) ++ rest) = ⟨true, opcode, data, rest⟩ := by
  have htake : (leBytes n data.length ++ (data ++ rest)).take n = leBytes n data.length :=
    take_left' (length_leBytes n _)
  have hdrop : (leBytes n data.length ++ (data ++ rest)).drop n = data ++ rest :=
    drop_left' (length_leBytes n _)
  unfold getOp2 getOperand
  rw [cons_append, append_assoc]
  dsimp only
  rw [if_pos hle, if_neg hge, ← hn, htake, hdrop, leValue_leBytes hdata, if_neg (by simp),
    if_neg (by simp), take_left, drop_left]

lemma getOp2_append (h : Instruction instr opcode data) (rest : Bytes) :
    getOp2 (instr ++ rest) = ⟨true, opcode, data, rest⟩ := by
  cases h with
  | direct h =>
    have hnat : (UInt8.ofNat data.length).toNat = data.length := by
      rw [UInt8.toNat_ofNat']
      omega
    have hlt : UInt8.ofNat data.length < OP_PUSHDATA1 := by
      rw [UInt8.lt_iff_toNat_lt, hnat]
      exact h
    have hle : UInt8.ofNat data.length ≤ OP_PUSHDATA4 := UInt8.le_of_lt (UInt8.lt_trans hlt (by decide))
    unfold getOp2 getOperand
    rw [cons_append]
    dsimp only
    rw [if_pos hle, if_pos hlt, hnat, if_neg (by simp), take_left, drop_left]
  | pushdata1 h => exact getOp2_sized_append (by decide) (by decide) rfl h rest
  | pushdata2 h => exact getOp2_sized_append (by decide) (by decide) rfl h rest
  | pushdata4 h => exact getOp2_sized_append (by decide) (by decide) rfl h rest
  | other h =>
    unfold getOp2
    rw [singleton_append]
    dsimp only
    rw [if_neg (UInt8.not_le.mpr h)]

end Instruction

lemma getOperand_eq_ok {opcode opcode' : Opcode} {nSize : ℕ} {pc data rest : Bytes}
    (h : getOperand opcode nSize pc = ⟨true, opcode', data, rest⟩) :
    opcode' = opcode ∧ data.length = nSize ∧ pc = data ++ rest := by
  unfold getOperand at h
  split_ifs at h with hshort
  · cases h
  · cases h
    exact ⟨rfl, by rw [length_take]; omega, (take_append_drop _ _).symm⟩

lemma sizedOperand_eq_ok {opcode opcode' : Opcode} {n : ℕ} {pc data rest : Bytes}
    (h : (if pc.length < n then ⟨false, OP_INVALIDOPCODE, [], pc⟩
      else getOperand opcode (leValue (pc.take n)) (pc.drop n)) =
        (⟨true, opcode', data, rest⟩ : CScript.GetOpResult)) :
    opcode' = opcode ∧ data.length < 256 ^ n ∧ pc = leBytes n data.length ++ data ++ rest := by
  by_cases hshort : pc.length < n
  · rw [if_pos hshort] at h
    cases h
  · rw [if_neg hshort] at h
    obtain ⟨hopcode, hlength, hdrop⟩ := getOperand_eq_ok h
    have htake : (pc.take n).length = n := by
      rw [length_take]
      omega
    have hlt := leValue_lt (pc.take n)
    rw [htake] at hlt
    refine ⟨hopcode, by rwa [hlength], ?_⟩
    rw [hlength, leBytes_take (Nat.le_of_not_lt hshort), append_assoc, ← hdrop, take_append_drop]

lemma instruction_of_getOp2 {pc data rest : Bytes} {opcode : Opcode}
    (h : getOp2 pc = ⟨true, opcode, data, rest⟩) :
    ∃ instr, Instruction instr opcode data ∧ pc = instr ++ rest := by
  cases pc with
  | nil => cases h
  | cons first pc =>
    unfold getOp2 at h
    dsimp only at h
    by_cases hpush : first ≤ OP_PUSHDATA4
    · rw [if_pos hpush] at h
      by_cases hdirect : first < OP_PUSHDATA1
      · rw [if_pos hdirect] at h
        obtain ⟨rfl, hlength, rfl⟩ := getOperand_eq_ok h
        have hlt : opcode.toNat < 76 := UInt8.lt_iff_toNat_lt.mp hdirect
        have hopcode : opcode = UInt8.ofNat data.length := by rw [hlength, UInt8.ofNat_toNat]
        refine ⟨opcode :: data, ?_, rfl⟩
        rw [hopcode]
        exact .direct (by omega)
      · rw [if_neg hdirect] at h
        obtain ⟨rfl, hdata, rfl⟩ := sizedOperand_eq_ok h
        refine ⟨opcode :: (leBytes _ data.length ++ data), ?_, by rw [cons_append]⟩
        by_cases h₁ : opcode = OP_PUSHDATA1
        · subst h₁
          exact .pushdata1 hdata
        · by_cases h₂ : opcode = OP_PUSHDATA2
          · subst h₂
            exact .pushdata2 hdata
          · have h₄ : opcode = OP_PUSHDATA4 := by
              have hle : opcode.toNat ≤ 78 := UInt8.le_iff_toNat_le.mp hpush
              have hge : ¬opcode.toNat < 76 := fun hlt => hdirect (UInt8.lt_iff_toNat_lt.mpr hlt)
              have hne₁ : opcode.toNat ≠ 76 := fun heq => h₁ (UInt8.toNat_inj.mp heq)
              have hne₂ : opcode.toNat ≠ 77 := fun heq => h₂ (UInt8.toNat_inj.mp heq)
              exact UInt8.toNat_inj.mp (show opcode.toNat = 78 by omega)
            subst h₄
            exact .pushdata4 hdata
    · rw [if_neg hpush] at h
      cases h
      exact ⟨[_], .other (UInt8.not_le.mp hpush), rfl⟩

/-! ### Steps of the comparison -/

lemma compareTemplate_nil {fuel : ℕ} {pc : Bytes} {sols out : List Bytes} :
    compareTemplate (fuel + 1) pc [] sols = some out ↔ pc = [] ∧ out = sols := by
  by_cases hpc : pc = []
  · rw [compareTemplate, if_pos ⟨hpc, rfl⟩, Option.some.injEq]
    exact ⟨fun h => ⟨hpc, h.symm⟩, fun h => h.2.symm⟩
  · have hnone : compareTemplate (fuel + 1) pc [] sols = none := by
      rw [compareTemplate, if_neg fun h => hpc h.1]
      simp [getOp2]
    rw [hnone]
    exact ⟨fun h => (nomatch h), fun h => absurd h.1 hpc⟩

lemma compareTemplate_cons {fuel : ℕ} {op₂ : Opcode} {pc pc₂ : Bytes} {sols out : List Bytes}
    (hop : OP_PUSHDATA4 < op₂) (hkeys : op₂ ≠ OP_PUBKEYS) :
    compareTemplate (fuel + 1) pc (op₂ :: pc₂) sols = some out ↔
      ∃ instr opcode data rest sols', Instruction instr opcode data ∧ pc = instr ++ rest ∧
        matchOp ⟨true, opcode, data, rest⟩ ⟨true, op₂, [], pc₂⟩ sols = some sols' ∧
        compareTemplate fuel rest pc₂ sols' = some out := by
  have hread : getOp2 (op₂ :: pc₂) = ⟨true, op₂, [], pc₂⟩ := (Instruction.other hop).getOp2_append pc₂
  rw [compareTemplate, if_neg (by simp), hread]
  dsimp only
  rw [if_neg hkeys]
  constructor
  · intro h
    cases hr : getOp2 pc with
    | mk ok opcode data rest =>
      rw [hr] at h
      cases ok with
      | false => cases h
      | true =>
        obtain ⟨sols', hmatch, hrest⟩ := bind_eq_some_iff.mp h
        obtain ⟨instr, hinstr, hpc⟩ := instruction_of_getOp2 hr
        exact ⟨instr, opcode, data, rest, sols', hinstr, hpc, hmatch, hrest⟩
  · rintro ⟨instr, opcode, data, rest, sols', hinstr, rfl, hmatch, hrest⟩
    rw [hinstr.getOp2_append]
    exact bind_eq_some_iff.mpr ⟨sols', hmatch, hrest⟩

lemma Instruction.eq_singleton {instr data : Bytes} {opcode : Opcode} (h : Instruction instr opcode data)
    (hop : OP_PUSHDATA4 < opcode) : instr = [opcode] ∧ data = [] := by
  cases h with
  | direct h =>
    have hlt := UInt8.lt_iff_toNat_lt.mp hop
    rw [UInt8.toNat_ofNat'] at hlt
    have hnat : OP_PUSHDATA4.toNat = 78 := rfl
    omega
  | pushdata1 h => exact absurd hop (by decide)
  | pushdata2 h => exact absurd hop (by decide)
  | pushdata4 h => exact absurd hop (by decide)
  | other h => exact ⟨rfl, rfl⟩

lemma Instruction.pushesData {instr data : Bytes} {opcode : Opcode} (h : Instruction instr opcode data)
    (hdata : 0 < data.length) : PushesData instr data := by
  refine ⟨opcode, UInt8.not_lt.mp fun hop => ?_, h⟩
  rw [(h.eq_singleton hop).2] at hdata
  exact absurd hdata (by decide)

lemma compareTemplate_exact {fuel : ℕ} {op₂ : Opcode} {pc pc₂ : Bytes} {sols out : List Bytes}
    (hop : OP_PUSHDATA4 < op₂) (hlt : op₂ < OP_SMALLINTEGER) :
    compareTemplate (fuel + 1) pc (op₂ :: pc₂) sols = some out ↔
      ∃ rest, pc = op₂ :: rest ∧ compareTemplate fuel rest pc₂ sols = some out := by
  have hne : ∀ op, OP_SMALLINTEGER ≤ op → op₂ ≠ op := by
    rintro op hle rfl
    exact absurd hlt (UInt8.not_lt.mpr hle)
  rw [compareTemplate_cons hop (hne _ (by decide))]
  have hmatch : ∀ opcode data rest sols',
      matchOp ⟨true, opcode, data, rest⟩ ⟨true, op₂, [], pc₂⟩ sols = some sols' ↔
        opcode = op₂ ∧ data = [] ∧ sols' = sols := by
    intro opcode data rest sols'
    unfold matchOp
    dsimp only
    rw [if_neg (hne _ (by decide)), if_neg (hne _ (by decide)), if_neg (hne _ (by decide))]
    by_cases heq : opcode = op₂ ∧ data = []
    · rw [if_neg (by rw [heq.1, heq.2]; simp), Option.some.injEq]
      exact ⟨fun h => ⟨heq.1, heq.2, h.symm⟩, fun h => h.2.2.symm⟩
    · rw [if_pos (by tauto)]
      exact ⟨fun h => (nomatch h), fun h => absurd ⟨h.1, h.2.1⟩ heq⟩
  constructor
  · rintro ⟨instr, opcode, data, rest, sols', hinstr, rfl, hmatches, hrest⟩
    obtain ⟨rfl, -, rfl⟩ := (hmatch _ _ _ _).mp hmatches
    exact ⟨rest, by rw [(hinstr.eq_singleton hop).1]; rfl, hrest⟩
  · rintro ⟨rest, rfl, hrest⟩
    exact ⟨[op₂], op₂, [], rest, sols, .other hop, rfl, (hmatch _ _ _ _).mpr ⟨rfl, rfl, rfl⟩, hrest⟩

lemma compareTemplate_pubkey {fuel : ℕ} {pc pc₂ : Bytes} {sols out : List Bytes} :
    compareTemplate (fuel + 1) pc (OP_PUBKEY :: pc₂) sols = some out ↔
      ∃ push key rest, PushesKey push key ∧ pc = push ++ rest ∧
        compareTemplate fuel rest pc₂ (sols ++ [key]) = some out := by
  rw [compareTemplate_cons (by decide) (by decide)]
  constructor
  · rintro ⟨instr, opcode, data, rest, sols', hinstr, rfl, hmatch, hrest⟩
    unfold matchOp at hmatch
    dsimp only at hmatch
    rw [if_pos rfl] at hmatch
    split_ifs at hmatch with hsize
    cases hmatch
    exact ⟨instr, data, rest, ⟨hinstr.pushesData (by omega), by omega, by omega⟩, rfl, hrest⟩
  · rintro ⟨push, key, rest, ⟨⟨opcode, -, hinstr⟩, hge, hle⟩, rfl, hrest⟩
    refine ⟨push, opcode, key, rest, _, hinstr, rfl, ?_, hrest⟩
    unfold matchOp
    dsimp only
    rw [if_pos rfl, if_neg (by omega)]

lemma compareTemplate_pubkeyhash {fuel : ℕ} {pc pc₂ : Bytes} {sols out : List Bytes} :
    compareTemplate (fuel + 1) pc (OP_PUBKEYHASH :: pc₂) sols = some out ↔
      ∃ push hash rest, PushesData push hash ∧ hash.length = 20 ∧ pc = push ++ rest ∧
        compareTemplate fuel rest pc₂ (sols ++ [hash]) = some out := by
  rw [compareTemplate_cons (by decide) (by decide)]
  constructor
  · rintro ⟨instr, opcode, data, rest, sols', hinstr, rfl, hmatch, hrest⟩
    unfold matchOp at hmatch
    dsimp only at hmatch
    rw [if_neg (by decide), if_pos rfl] at hmatch
    split_ifs at hmatch with hsize
    cases hmatch
    exact ⟨instr, data, rest, hinstr.pushesData (by omega), by omega, rfl, hrest⟩
  · rintro ⟨push, hash, rest, ⟨opcode, -, hinstr⟩, hlength, rfl, hrest⟩
    refine ⟨push, opcode, hash, rest, _, hinstr, rfl, ?_, hrest⟩
    unfold matchOp
    dsimp only
    rw [if_neg (by decide), if_pos rfl, if_neg (by omega)]

/-! ### Small integers -/

lemma toNat_smallInteger {n : ℕ} (hn : n ≤ 16) :
    (smallInteger n).toNat = if n = 0 then 0 else n + 80 := by
  unfold smallInteger
  split_ifs with hzero
  · rfl
  · rw [UInt8.toNat_ofNat']
    omega

lemma smallInteger_range {n : ℕ} (hn : n ≤ 16) :
    smallInteger n = OP_0 ∨ (OP_1 ≤ smallInteger n ∧ smallInteger n ≤ OP_16) := by
  by_cases hzero : n = 0
  · exact Or.inl (if_pos hzero)
  · have hnat := toNat_smallInteger hn
    rw [if_neg hzero] at hnat
    refine Or.inr ⟨UInt8.le_iff_toNat_le.mpr ?_, UInt8.le_iff_toNat_le.mpr ?_⟩
    · rw [hnat]
      exact (show 81 ≤ n + 80 by omega)
    · rw [hnat]
      exact (show n + 80 ≤ 96 by omega)

lemma eq_smallInteger {opcode : Opcode} (h : opcode = OP_0 ∨ (OP_1 ≤ opcode ∧ opcode ≤ OP_16)) :
    decodeOpN opcode ≤ 16 ∧ opcode = smallInteger (decodeOpN opcode) := by
  obtain rfl | ⟨hge, hle⟩ := h
  · exact ⟨by decide, by decide⟩
  · have hge' : 81 ≤ opcode.toNat := UInt8.le_iff_toNat_le.mp hge
    have hle' : opcode.toNat ≤ 96 := UInt8.le_iff_toNat_le.mp hle
    have hne : opcode ≠ OP_0 := by
      rintro rfl
      exact absurd hge (by decide)
    have hdecode : decodeOpN opcode = opcode.toNat - 80 := if_neg hne
    refine ⟨by omega, UInt8.toNat_inj.mp ?_⟩
    rw [toNat_smallInteger (by omega), hdecode, if_neg (by omega)]
    omega

lemma decodeOpN_smallInteger {n : ℕ} (hn : n ≤ 16) : decodeOpN (smallInteger n) = n := by
  by_cases hzero : n = 0
  · subst hzero
    rfl
  · have hnat := toNat_smallInteger hn
    rw [if_neg hzero] at hnat
    have hne : smallInteger n ≠ OP_0 := by
      intro heq
      rw [heq] at hnat
      exact absurd hnat.symm (succ_ne_zero _)
    rw [decodeOpN, if_neg hne, hnat]
    exact (show n + 80 - 80 = n by omega)

lemma instruction_smallInteger {n : ℕ} (hn : n ≤ 16) : Instruction [smallInteger n] (smallInteger n) [] := by
  obtain hzero | ⟨hge, -⟩ := smallInteger_range hn
  · rw [hzero]
    exact @Instruction.direct [] (by decide)
  · exact .other (UInt8.lt_of_lt_of_le (by decide) hge)

lemma Instruction.of_small {instr data : Bytes} {opcode : Opcode} (h : Instruction instr opcode data)
    (hop : opcode = OP_0 ∨ (OP_1 ≤ opcode ∧ opcode ≤ OP_16)) : instr = [opcode] ∧ data = [] := by
  obtain hzero | ⟨hge, -⟩ := hop
  · have hnat : opcode.toNat = 0 := by
      rw [hzero]
      rfl
    cases h with
    | @direct data h =>
      rw [UInt8.toNat_ofNat', mod_eq_of_lt (by omega)] at hnat
      obtain rfl := eq_nil_of_length_eq_zero hnat
      exact ⟨rfl, rfl⟩
    | pushdata1 h => exact absurd hnat (by decide)
    | pushdata2 h => exact absurd hnat (by decide)
    | pushdata4 h => exact absurd hnat (by decide)
    | other h => exact ⟨rfl, rfl⟩
  · exact h.eq_singleton (UInt8.lt_of_lt_of_le (by decide) hge)

lemma matchOp_smallInteger_iff {opcode : Opcode} {data rest pc₂ : Bytes} {ok : Bool} {sols sols' : List Bytes} :
    matchOp ⟨ok, opcode, data, rest⟩ ⟨true, OP_SMALLINTEGER, [], pc₂⟩ sols = some sols' ↔
      (opcode = OP_0 ∨ (OP_1 ≤ opcode ∧ opcode ≤ OP_16)) ∧
        sols' = sols ++ [[UInt8.ofNat (decodeOpN opcode)]] := by
  unfold matchOp
  dsimp only
  rw [if_neg (by decide), if_neg (by decide), if_pos rfl]
  by_cases hsmall : opcode = OP_0 ∨ (OP_1 ≤ opcode ∧ opcode ≤ OP_16)
  · rw [if_pos hsmall, Option.some.injEq]
    exact ⟨fun h => ⟨hsmall, h.symm⟩, fun h => h.2.symm⟩
  · rw [if_neg hsmall]
    exact ⟨fun h => (nomatch h), fun h => absurd h.1 hsmall⟩

lemma compareTemplate_smallinteger {fuel : ℕ} {pc pc₂ : Bytes} {sols out : List Bytes} :
    compareTemplate (fuel + 1) pc (OP_SMALLINTEGER :: pc₂) sols = some out ↔
      ∃ n ≤ 16, ∃ rest, pc = smallInteger n :: rest ∧
        compareTemplate fuel rest pc₂ (sols ++ [[UInt8.ofNat n]]) = some out := by
  rw [compareTemplate_cons (by decide) (by decide)]
  constructor
  · rintro ⟨instr, opcode, data, rest, sols', hinstr, rfl, hmatch, hrest⟩
    obtain ⟨hsmall, rfl⟩ := matchOp_smallInteger_iff.mp hmatch
    obtain ⟨hle, hopcode⟩ := eq_smallInteger hsmall
    refine ⟨_, hle, rest, ?_, hrest⟩
    rw [(hinstr.of_small hsmall).1, ← hopcode]
    rfl
  · rintro ⟨n, hn, rest, rfl, hrest⟩
    refine ⟨[smallInteger n], smallInteger n, [], rest, _, instruction_smallInteger hn, rfl, ?_, hrest⟩
    rw [matchOp_smallInteger_iff, decodeOpN_smallInteger hn]
    exact ⟨smallInteger_range hn, rfl⟩

/-! ### The repetition -/

lemma getOp2_of_not_ok {pc : Bytes} (h : (getOp2 pc).ok = false) :
    (getOp2 pc).opcodeRet = OP_INVALIDOPCODE ∧ (getOp2 pc).vchRet = [] := by
  cases pc with
  | nil => exact ⟨rfl, rfl⟩
  | cons opcode pc =>
    unfold getOp2 getOperand at h ⊢
    dsimp only at h ⊢
    by_cases hpush : opcode ≤ OP_PUSHDATA4
    · rw [if_pos hpush] at h ⊢
      by_cases hdirect : opcode < OP_PUSHDATA1
      · rw [if_pos hdirect] at h ⊢
        by_cases hshort : pc.length < opcode.toNat
        · rw [if_pos hshort]
          exact ⟨rfl, rfl⟩
        · rw [if_neg hshort] at h
          cases h
      · rw [if_neg hdirect] at h ⊢
        generalize (if opcode = OP_PUSHDATA1 then 1 else if opcode = OP_PUSHDATA2 then 2 else 4) = n at h ⊢
        by_cases hsize : pc.length < n
        · rw [if_pos hsize]
          exact ⟨rfl, rfl⟩
        · rw [if_neg hsize] at h ⊢
          by_cases hshort : (pc.drop n).length < leValue (pc.take n)
          · rw [if_pos hshort]
            exact ⟨rfl, rfl⟩
          · rw [if_neg hshort] at h
            cases h
    · rw [if_neg hpush] at h
      cases h

lemma readPubKeys_spec (fuel : ℕ) (pc : Bytes) (sols : List Bytes) :
    ∃ pushes keys last, List.Forall₂ PushesKey pushes keys ∧ pc = pushes.flatten ++ last ∧
      readPubKeys fuel (getOp2 pc) sols = (getOp2 last, sols ++ keys) := by
  induction fuel generalizing pc sols with
  | zero => exact ⟨[], [], pc, .nil, rfl, by rw [readPubKeys, append_nil]⟩
  | succ fuel ih =>
    rw [readPubKeys]
    by_cases hkey : 33 ≤ (getOp2 pc).vchRet.length ∧ (getOp2 pc).vchRet.length ≤ 65
    · rw [if_pos hkey]
      cases hr : getOp2 pc with
      | mk ok opcode key rest =>
        rw [hr] at hkey
        cases ok with
        | false =>
          have hempty := (getOp2_of_not_ok (congrArg CScript.GetOpResult.ok hr)).2
          rw [hr] at hempty
          dsimp only at hempty hkey
          rw [hempty] at hkey
          exact absurd hkey.1 (by decide)
        | true =>
          obtain ⟨push, hinstr, rfl⟩ := instruction_of_getOp2 hr
          have hpush : PushesKey push key := ⟨hinstr.pushesData (lt_of_lt_of_le (by decide) hkey.1), hkey⟩
          dsimp only
          by_cases hnext : (getOp2 rest).ok = true
          · rw [if_pos hnext]
            obtain ⟨pushes, keys, last, hpushes, rfl, hread⟩ := ih rest (sols ++ [key])
            refine ⟨push :: pushes, key :: keys, last, .cons hpush hpushes, ?_, ?_⟩
            · rw [flatten_cons, append_assoc]
            · rw [hread, append_assoc, singleton_append]
          · rw [if_neg hnext]
            refine ⟨[push], [key], rest, .cons hpush .nil, ?_, rfl⟩
            rw [flatten_cons, flatten_nil, append_nil]
    · rw [if_neg hkey]
      exact ⟨[], [], pc, .nil, rfl, by rw [append_nil]⟩

lemma readPubKeys_flatten {pushes keys : List Bytes} (hpushes : List.Forall₂ PushesKey pushes keys)
    {last : Bytes} (hok : (getOp2 last).ok = true)
    (hlast : ¬(33 ≤ (getOp2 last).vchRet.length ∧ (getOp2 last).vchRet.length ≤ 65))
    {fuel : ℕ} (hfuel : pushes.length < fuel) (sols : List Bytes) :
    readPubKeys fuel (getOp2 (pushes.flatten ++ last)) sols =
      (getOp2 last, sols ++ keys) := by
  induction hpushes generalizing fuel sols with
  | nil =>
    obtain ⟨fuel, rfl⟩ := exists_eq_succ_of_ne_zero (ne_zero_of_lt hfuel)
    rw [flatten_nil, nil_append, readPubKeys, if_neg hlast, append_nil]
  | @cons push key pushes keys hpush hpushes ih =>
    obtain ⟨fuel, rfl⟩ := exists_eq_succ_of_ne_zero (ne_zero_of_lt hfuel)
    obtain ⟨⟨opcode, -, hinstr⟩, hsize⟩ := hpush
    have hnext : (getOp2 (pushes.flatten ++ last)).ok = true := by
      cases hpushes with
      | nil => exact hok
      | cons hpush _ =>
        obtain ⟨⟨opcode, -, hinstr⟩, -⟩ := hpush
        rw [flatten_cons, append_assoc, hinstr.getOp2_append]
    rw [flatten_cons, append_assoc, hinstr.getOp2_append, readPubKeys, if_pos hsize]
    dsimp only
    rw [if_pos hnext, ih (by simpa using hfuel), append_assoc, singleton_append]

lemma length_le_flatten {pushes keys : List Bytes} (hpushes : List.Forall₂ PushesKey pushes keys) :
    pushes.length ≤ pushes.flatten.length := by
  induction hpushes with
  | nil => exact le_rfl
  | cons hpush _ ih =>
    obtain ⟨⟨opcode, -, hinstr⟩, -⟩ := hpush
    have hpos := hinstr.length_pos
    rw [flatten_cons, length_append, length_cons]
    omega

lemma compareTemplate_pubkeys {fuel : ℕ} {pc pc₂ : Bytes} {sols out : List Bytes} :
    compareTemplate (fuel + 1) pc (OP_PUBKEYS :: OP_SMALLINTEGER :: pc₂) sols = some out ↔
      ∃ pushes keys, List.Forall₂ PushesKey pushes keys ∧ ∃ n ≤ 16, ∃ rest,
        pc = pushes.flatten ++ smallInteger n :: rest ∧
        compareTemplate fuel rest pc₂ (sols ++ keys ++ [[UInt8.ofNat n]]) = some out := by
  have hread₁ : getOp2 (OP_PUBKEYS :: OP_SMALLINTEGER :: pc₂) =
      ⟨true, OP_PUBKEYS, [], OP_SMALLINTEGER :: pc₂⟩ := (Instruction.other (by decide)).getOp2_append _
  have hread₂ : getOp2 (OP_SMALLINTEGER :: pc₂) = ⟨true, OP_SMALLINTEGER, [], pc₂⟩ :=
    (Instruction.other (by decide)).getOp2_append _
  rw [compareTemplate, if_neg (by simp), hread₁]
  dsimp only
  rw [if_pos rfl, hread₂]
  dsimp only
  constructor
  · intro h
    by_cases hok : (getOp2 pc).ok = true
    · rw [hok] at h
      obtain ⟨pushes, keys, last, hpushes, rfl, hread⟩ := readPubKeys_spec (pc.length + 1) pc sols
      rw [hread] at h
      obtain ⟨sols', hmatch, hrest⟩ := bind_eq_some_iff.mp h
      cases hr : getOp2 last with
      | mk ok opcode data rest =>
        rw [hr] at hmatch hrest
        obtain ⟨hsmall, rfl⟩ := matchOp_smallInteger_iff.mp hmatch
        cases ok with
        | false =>
          have hinvalid := (getOp2_of_not_ok (congrArg CScript.GetOpResult.ok hr)).1
          rw [hr] at hinvalid
          dsimp only at hinvalid
          rw [hinvalid] at hsmall
          exact absurd hsmall (by decide)
        | true =>
          obtain ⟨instr, hinstr, rfl⟩ := instruction_of_getOp2 hr
          obtain ⟨hle, hopcode⟩ := eq_smallInteger hsmall
          refine ⟨pushes, keys, hpushes, _, hle, rest, ?_, hrest⟩
          rw [(hinstr.of_small hsmall).1, ← hopcode, singleton_append]
    · rw [if_pos (by rw [Bool.eq_false_iff.mpr hok]; rfl)] at h
      cases h
  · rintro ⟨pushes, keys, hpushes, n, hn, rest, rfl, hrest⟩
    have hlast : getOp2 (smallInteger n :: rest) = ⟨true, smallInteger n, [], rest⟩ :=
      (instruction_smallInteger hn).getOp2_append rest
    have hok : (getOp2 (pushes.flatten ++ smallInteger n :: rest)).ok = true := by
      cases hpushes with
      | nil => rw [flatten_nil, nil_append, hlast]
      | cons hpush _ =>
        obtain ⟨⟨opcode, -, hinstr⟩, -⟩ := hpush
        rw [flatten_cons, append_assoc, hinstr.getOp2_append]
    have hfuel := length_le_flatten hpushes
    have hread : readPubKeys ((pushes.flatten ++ smallInteger n :: rest).length + 1)
        (getOp2 (pushes.flatten ++ smallInteger n :: rest)) sols =
          (getOp2 (smallInteger n :: rest), sols ++ keys) := by
      refine readPubKeys_flatten hpushes (by rw [hlast]) (by rw [hlast]; simp) ?_ sols
      rw [length_append]
      omega
    rw [hok, hread, hlast]
    refine bind_eq_some_iff.mpr ⟨_, ?_, hrest⟩
    rw [matchOp_smallInteger_iff, decodeOpN_smallInteger hn]
    exact ⟨smallInteger_range hn, rfl⟩

/-! ### The three templates -/

lemma comparePubkey_iff {script : CScript} {sols : List Bytes} :
    compareTemplate 3 script [OP_PUBKEY, OP_CHECKSIG] [] = some sols ↔
      ∃ push key, PushesKey push key ∧ script = push ++ [OP_CHECKSIG] ∧ sols = [key] := by
  rw [compareTemplate_pubkey]
  constructor
  · rintro ⟨push, key, rest, hpush, rfl, hcheck⟩
    obtain ⟨last, rfl, hend⟩ := (compareTemplate_exact (by decide) (by decide)).mp hcheck
    obtain ⟨rfl, rfl⟩ := compareTemplate_nil.mp hend
    exact ⟨push, key, hpush, rfl, rfl⟩
  · rintro ⟨push, key, hpush, rfl, rfl⟩
    refine ⟨push, key, _, hpush, rfl, (compareTemplate_exact (by decide) (by decide)).mpr ⟨[], rfl, ?_⟩⟩
    exact compareTemplate_nil.mpr ⟨rfl, rfl⟩

lemma comparePubkeyhash_iff {script : CScript} {sols : List Bytes} :
    compareTemplate 6 script [OP_DUP, OP_HASH160, OP_PUBKEYHASH, OP_EQUALVERIFY, OP_CHECKSIG] [] = some sols ↔
      ∃ push hash, PushesData push hash ∧ hash.length = 20 ∧
        script = [OP_DUP, OP_HASH160] ++ push ++ [OP_EQUALVERIFY, OP_CHECKSIG] ∧ sols = [hash] := by
  have hexact : ∀ {fuel pc pc₂ sols out} (op₂ : Opcode), OP_PUSHDATA4 < op₂ → op₂ < OP_SMALLINTEGER →
      (compareTemplate (fuel + 1) pc (op₂ :: pc₂) sols = some out ↔
        ∃ rest, pc = op₂ :: rest ∧ compareTemplate fuel rest pc₂ sols = some out) :=
    fun _ => compareTemplate_exact
  constructor
  · intro h
    obtain ⟨_, rfl, hhash160⟩ := (hexact OP_DUP (by decide) (by decide)).mp h
    obtain ⟨_, rfl, hpushed⟩ := (hexact OP_HASH160 (by decide) (by decide)).mp hhash160
    obtain ⟨push, hash, _, hpush, hlength, rfl, hequal⟩ := compareTemplate_pubkeyhash.mp hpushed
    obtain ⟨_, rfl, hcheck⟩ := (hexact OP_EQUALVERIFY (by decide) (by decide)).mp hequal
    obtain ⟨_, rfl, hend⟩ := (hexact OP_CHECKSIG (by decide) (by decide)).mp hcheck
    obtain ⟨rfl, rfl⟩ := compareTemplate_nil.mp hend
    exact ⟨push, hash, hpush, hlength, rfl, rfl⟩
  · rintro ⟨push, hash, hpush, hlength, rfl, rfl⟩
    refine (hexact OP_DUP (by decide) (by decide)).mpr ⟨_, rfl, ?_⟩
    refine (hexact OP_HASH160 (by decide) (by decide)).mpr ⟨_, rfl, ?_⟩
    refine compareTemplate_pubkeyhash.mpr ⟨push, hash, _, hpush, hlength, rfl, ?_⟩
    refine (hexact OP_EQUALVERIFY (by decide) (by decide)).mpr ⟨_, rfl, ?_⟩
    refine (hexact OP_CHECKSIG (by decide) (by decide)).mpr ⟨_, rfl, ?_⟩
    exact compareTemplate_nil.mpr ⟨rfl, rfl⟩

lemma compareMultisig_iff {script : CScript} {sols : List Bytes} :
    compareTemplate 5 script [OP_SMALLINTEGER, OP_PUBKEYS, OP_SMALLINTEGER, OP_CHECKMULTISIG] [] = some sols ↔
      ∃ m ≤ 16, ∃ pushes keys, List.Forall₂ PushesKey pushes keys ∧ ∃ n ≤ 16,
        script = [smallInteger m] ++ pushes.flatten ++ [smallInteger n, OP_CHECKMULTISIG] ∧
        sols = [[UInt8.ofNat m]] ++ keys ++ [[UInt8.ofNat n]] := by
  rw [compareTemplate_smallinteger]
  constructor
  · rintro ⟨m, hm, _, rfl, hkeys⟩
    obtain ⟨pushes, keys, hpushes, n, hn, _, rfl, hcheck⟩ := compareTemplate_pubkeys.mp hkeys
    obtain ⟨_, rfl, hend⟩ := (compareTemplate_exact (by decide) (by decide)).mp hcheck
    obtain ⟨rfl, rfl⟩ := compareTemplate_nil.mp hend
    exact ⟨m, hm, pushes, keys, hpushes, n, hn, rfl, rfl⟩
  · rintro ⟨m, hm, pushes, keys, hpushes, n, hn, rfl, rfl⟩
    refine ⟨m, hm, _, rfl, compareTemplate_pubkeys.mpr ⟨pushes, keys, hpushes, n, hn, _, rfl, ?_⟩⟩
    refine (compareTemplate_exact (by decide) (by decide)).mpr ⟨[], rfl, ?_⟩
    exact compareTemplate_nil.mpr ⟨rfl, rfl⟩

lemma badMultisigCounts_iff {m n : ℕ} (hm : m ≤ 16) (hn : n ≤ 16) (keys : List Bytes) :
    badMultisigCounts ([[UInt8.ofNat m]] ++ keys ++ [[UInt8.ofNat n]]) = true ↔
      ¬(1 ≤ m ∧ m ≤ n ∧ keys.length = n) := by
  have hm' : (UInt8.ofNat m).toNat = m := by
    rw [UInt8.toNat_ofNat']
    omega
  have hn' : (UInt8.ofNat n).toNat = n := by
    rw [UInt8.toNat_ofNat']
    omega
  unfold badMultisigCounts
  have hlength : ([[UInt8.ofNat m]] ++ keys ++ [[UInt8.ofNat n]]).length - 2 = keys.length := by simp
  rw [hlength, getLastD_concat]
  have hcons : ([[UInt8.ofNat m]] ++ keys ++ [[UInt8.ofNat n]]).headD [] = [UInt8.ofNat m] := rfl
  rw [hcons]
  dsimp only [headD_cons]
  have hone : (1 : UInt8).toNat = 1 := rfl
  simp only [Bool.or_eq_true, decide_eq_true_eq, bne_iff_ne, ne_eq, UInt8.lt_iff_toNat_lt, hm', hn', hone]
  omega

/-! ### The shortcuts -/

lemma isPayToScriptHash_iff {script : CScript} :
    isPayToScriptHash script = true ↔
      ∃ hash : Bytes, hash.length = 20 ∧ script = [OP_HASH160, 20] ++ hash ++ [OP_EQUAL] := by
  unfold isPayToScriptHash
  simp only [Bool.and_eq_true, beq_iff_eq]
  constructor
  · rintro ⟨⟨⟨hlength, h₀⟩, h₁⟩, h₂₂⟩
    match script with
    | [] => cases hlength
    | [_] => cases hlength
    | op :: size :: rest =>
      have hrest : rest.length = 21 := by simpa using hlength
      cases h₀
      cases h₁
      refine ⟨rest.take 20, by rw [length_take, hrest]; rfl, ?_⟩
      have hlast : rest.drop 20 = [OP_EQUAL] := by
        obtain ⟨last, hlast⟩ : ∃ last, rest.drop 20 = [last] :=
          length_eq_one_iff.mp (by rw [length_drop, hrest])
        have hget : rest[20]? = some OP_EQUAL := h₂₂
        rw [← head?_drop, hlast] at hget
        cases hget
        exact hlast
      rw [← hlast, append_assoc, take_append_drop]
      rfl
  · rintro ⟨hash, hlength, rfl⟩
    refine ⟨⟨⟨by simp [hlength], rfl⟩, rfl⟩, ?_⟩
    rw [getElem?_append_right (by simp [hlength])]
    simp [hlength]

lemma isWitnessProgram_iff {script program : Bytes} {version : ℕ} :
    isWitnessProgram script = some (version, program) ↔
      version ≤ 16 ∧ 2 ≤ program.length ∧ program.length ≤ 40 ∧
        script = smallInteger version :: UInt8.ofNat program.length :: program := by
  unfold isWitnessProgram
  match script with
  | [] => simp
  | [_] => simp
  | op :: size :: rest =>
    dsimp only
    constructor
    · intro h
      split_ifs at h with hlength hop hsize
      cases h
      rw [length_cons, length_cons] at hlength hsize
      have hsmall : op = OP_0 ∨ (OP_1 ≤ op ∧ op ≤ OP_16) := by
        by_cases hzero : op = OP_0
        · exact Or.inl hzero
        · refine Or.inr ⟨UInt8.not_lt.mp fun hlt => hop ⟨hzero, Or.inl hlt⟩, UInt8.not_lt.mp fun hlt => ?_⟩
          exact hop ⟨hzero, Or.inr hlt⟩
      obtain ⟨hle, hopcode⟩ := eq_smallInteger hsmall
      refine ⟨hle, by omega, by omega, ?_⟩
      have hrest : size = UInt8.ofNat program.length := by
        rw [show program.length = size.toNat by omega, UInt8.ofNat_toNat]
      rw [← hopcode, ← hrest]
    · rintro ⟨hle, hge, hlength, heq⟩
      obtain ⟨rfl, rfl, rfl⟩ : op = smallInteger version ∧ size = UInt8.ofNat program.length ∧ rest = program := by
        simpa using heq
      have hnat : (UInt8.ofNat rest.length).toNat = rest.length := by
        rw [UInt8.toNat_ofNat']
        omega
      rw [length_cons, length_cons, if_neg (by omega), if_neg, if_pos (by omega),
        decodeOpN_smallInteger hle]
      rintro ⟨hne, hout⟩
      obtain hzero | ⟨hop₁, hop₁₆⟩ := smallInteger_range hle
      · exact hne hzero
      · exact hout.elim (UInt8.not_lt.mpr hop₁) (UInt8.not_lt.mpr hop₁₆)

lemma scanOps_pushOnly_iff {fuel : ℕ} {pc : Bytes} (hfuel : pc.length < fuel) :
    ((scanOps fuel pc).complete = true ∧
      (scanOps fuel pc).ops.all (fun r => r.opcodeRet ≤ OP_16) = true) ↔ PushSequence pc := by
  induction fuel generalizing pc with
  | zero => exact absurd hfuel (not_lt_zero _)
  | succ fuel ih =>
    rw [scanOps]
    dsimp only
    cases hr : getOp2 pc with
    | mk ok opcode data rest =>
      cases ok with
      | false =>
        rw [if_neg Bool.false_ne_true]
        simp only [List.isEmpty_iff, List.all_nil, and_true]
        constructor
        · rintro rfl
          exact ⟨[], rfl, by simp⟩
        · rintro ⟨pushes, rfl, hpushes⟩
          cases pushes with
          | nil => rfl
          | cons push pushes =>
            obtain ⟨op, operand, hinstr, -⟩ := hpushes push mem_cons_self
            rw [flatten_cons, hinstr.getOp2_append] at hr
            cases hr
      | true =>
        obtain ⟨instr, hinstr, rfl⟩ := instruction_of_getOp2 hr
        have hpos := hinstr.length_pos
        rw [length_append] at hfuel
        have hrest := @ih rest (by omega)
        rw [if_pos rfl]
        simp only [all_cons, Bool.and_eq_true, decide_eq_true_eq]
        constructor
        · rintro ⟨hcomplete, hop, hall⟩
          obtain ⟨pushes, rfl, hpushes⟩ := hrest.mp ⟨hcomplete, hall⟩
          refine ⟨instr :: pushes, flatten_cons.symm, ?_⟩
          rintro push (_ | ⟨_, hmem⟩)
          · exact ⟨opcode, data, hinstr, hop⟩
          · exact hpushes push hmem
        · rintro ⟨pushes, hscript, hpushes⟩
          cases pushes with
          | nil =>
            have hlength := congrArg List.length hscript
            rw [length_append, flatten_nil, length_nil] at hlength
            omega
          | cons push pushes =>
            obtain ⟨op, operand, hpush, hop⟩ := hpushes push mem_cons_self
            rw [flatten_cons] at hscript
            rw [hscript, hpush.getOp2_append] at hr
            cases hr
            obtain ⟨hcomplete, hall⟩ := hrest.mpr ⟨pushes, rfl, fun p hp => hpushes p (mem_cons_of_mem _ hp)⟩
            exact ⟨hcomplete, hop, hall⟩

lemma isPushOnly_iff {script : CScript} : isPushOnly script = true ↔ PushSequence script := by
  rw [isPushOnly, Bool.and_eq_true]
  exact scanOps_pushOnly_iff (lt_succ_self _)

lemma isNullData_iff {script : CScript} :
    isNullData script = true ↔ ∃ pushes, PushSequence pushes ∧ script = OP_RETURN :: pushes := by
  cases script with
  | nil => simp [isNullData]
  | cons opcode pc =>
    rw [isNullData, Bool.and_eq_true, beq_iff_eq, isPushOnly_iff]
    constructor
    · rintro ⟨rfl, hpushes⟩
      exact ⟨pc, hpushes, rfl⟩
    · rintro ⟨pushes, hpushes, heq⟩
      cases heq
      exact ⟨rfl, hpushes⟩

/-! ### The scan of the templates -/

lemma scanTemplates_eq (script : CScript) : scanTemplates script mTemplates =
    match compareTemplate 3 script [OP_PUBKEY, OP_CHECKSIG] [] with
    | some sols => ⟨true, TX_PUBKEY, sols⟩
    | none =>
      match compareTemplate 6 script [OP_DUP, OP_HASH160, OP_PUBKEYHASH, OP_EQUALVERIFY, OP_CHECKSIG] [] with
      | some sols => ⟨true, TX_PUBKEYHASH, sols⟩
      | none =>
        match compareTemplate 5 script [OP_SMALLINTEGER, OP_PUBKEYS, OP_SMALLINTEGER, OP_CHECKMULTISIG] [] with
        | some sols =>
          if badMultisigCounts sols then ⟨false, TX_MULTISIG, sols⟩ else ⟨true, TX_MULTISIG, sols⟩
        | none => ⟨false, TX_NONSTANDARD, []⟩ := by
  simp only [mTemplates, scanTemplates, length_cons, length_nil, zero_add, Nat.reduceAdd]
  cases compareTemplate 3 script [OP_PUBKEY, OP_CHECKSIG] [] with
  | some sols => rfl
  | none =>
    cases compareTemplate 6 script [OP_DUP, OP_HASH160, OP_PUBKEYHASH, OP_EQUALVERIFY, OP_CHECKSIG] [] with
    | some sols => rfl
    | none =>
      cases compareTemplate 5 script [OP_SMALLINTEGER, OP_PUBKEYS, OP_SMALLINTEGER, OP_CHECKMULTISIG] [] with
      | some sols => simp
      | none => rfl

lemma PushesData.exists_cons {push data : Bytes} (h : PushesData push data) (hdata : 0 < data.length) :
    ∃ op tail, push = op :: tail ∧ op ≤ OP_PUSHDATA4 ∧ op ≠ OP_0 ∧
      (op = UInt8.ofNat data.length ∧ data.length < 76 ∧ tail = data ∨ OP_PUSHDATA1 ≤ op) := by
  obtain ⟨opcode, hle, h⟩ := h
  cases h with
  | direct h =>
    refine ⟨_, _, rfl, hle, ?_, Or.inl ⟨rfl, h, rfl⟩⟩
    intro hzero
    have hnat := congrArg UInt8.toNat hzero
    rw [UInt8.toNat_ofNat', mod_eq_of_lt (by omega)] at hnat
    exact absurd hnat (pos_iff_ne_zero.mp hdata)
  | pushdata1 h => exact ⟨_, _, rfl, hle, by decide, Or.inr (by decide)⟩
  | pushdata2 h => exact ⟨_, _, rfl, hle, by decide, Or.inr (by decide)⟩
  | pushdata4 h => exact ⟨_, _, rfl, hle, by decide, Or.inr (by decide)⟩
  | other h => exact absurd hle (UInt8.not_le.mpr h)

lemma shortcuts_eq_none {op : Opcode} (tail : Bytes) (hhash : op ≠ OP_HASH160) (hreturn : op ≠ OP_RETURN) :
    isPayToScriptHash (op :: tail) = false ∧ isNullData (op :: tail) = false := by
  constructor
  · rw [Bool.eq_false_iff, Ne, isPayToScriptHash_iff]
    rintro ⟨hash, -, heq⟩
    cases heq
    exact hhash rfl
  · rw [Bool.eq_false_iff, Ne, isNullData_iff]
    rintro ⟨pushes, -, heq⟩
    cases heq
    exact hreturn rfl

lemma isWitnessProgram_eq_none {op : Opcode} (tail : Bytes) (h : op ≠ OP_0 ∧ (op < OP_1 ∨ OP_16 < op)) :
    isWitnessProgram (op :: tail) = none := by
  cases hprogram : isWitnessProgram (op :: tail) with
  | none => rfl
  | some found =>
    obtain ⟨version, program⟩ := found
    obtain ⟨hle, -, -, heq⟩ := isWitnessProgram_iff.mp hprogram
    obtain ⟨rfl, -⟩ := List.cons.inj heq
    obtain hzero | ⟨hge, hle⟩ := smallInteger_range hle
    · exact absurd hzero h.1
    · exact absurd h.2 (not_or.mpr ⟨UInt8.not_lt.mpr hge, UInt8.not_lt.mpr hle⟩)

lemma isWitnessProgram_multisig {m : ℕ} {push key rest : Bytes} (hpush : PushesKey push key)
    (hrest : 0 < rest.length) : isWitnessProgram (smallInteger m :: (push ++ rest)) = none := by
  cases hprogram : isWitnessProgram (smallInteger m :: (push ++ rest)) with
  | none => rfl
  | some found =>
    obtain ⟨version, program⟩ := found
    obtain ⟨-, -, hle, heq⟩ := isWitnessProgram_iff.mp hprogram
    obtain ⟨op, tail, rfl, -, -, hop⟩ := hpush.1.exists_cons (by have := hpush.2; omega)
    obtain ⟨-, heq⟩ := List.cons.inj heq
    obtain ⟨hsize, htail⟩ := List.cons.inj heq
    have hnat : op.toNat = program.length := by
      rw [hsize, UInt8.toNat_ofNat']
      omega
    obtain ⟨hop, hlt, rfl⟩ | hge := hop
    · have hlength := congrArg List.length htail
      rw [append_eq, length_append] at hlength
      rw [hop, UInt8.toNat_ofNat', mod_eq_of_lt (by omega)] at hnat
      omega
    · have hge : 76 ≤ op.toNat := UInt8.le_iff_toNat_le.mp hge
      omega

/-! ### The classification -/

lemma comparePubkey_eq_none {op : Opcode} (tail : Bytes) (h : op = OP_0 ∨ OP_PUSHDATA4 < op) :
    compareTemplate 3 (op :: tail) [OP_PUBKEY, OP_CHECKSIG] [] = none := by
  refine eq_none_iff_forall_ne_some.mpr fun sols hsols => ?_
  obtain ⟨push, key, hpush, heq, -⟩ := comparePubkey_iff.mp hsols
  obtain ⟨op', tail', rfl, hle, hne, -⟩ := hpush.1.exists_cons (by have := hpush.2; omega)
  obtain ⟨rfl, -⟩ := List.cons.inj heq
  exact h.elim hne (UInt8.not_lt.mpr hle)

lemma solver_multisigForm {m n : ℕ} {pushes keys : List Bytes} (hm : m ≤ 16) (hn : n ≤ 16)
    (hpushes : List.Forall₂ PushesKey pushes keys) (typeRet : TxnOutType) :
    solver ([smallInteger m] ++ pushes.flatten ++ [smallInteger n, OP_CHECKMULTISIG]) typeRet =
      if badMultisigCounts ([[UInt8.ofNat m]] ++ keys ++ [[UInt8.ofNat n]]) then
        ⟨false, TX_MULTISIG, [[UInt8.ofNat m]] ++ keys ++ [[UInt8.ofNat n]]⟩
      else ⟨true, TX_MULTISIG, [[UInt8.ofNat m]] ++ keys ++ [[UInt8.ofNat n]]⟩ := by
  have htemplate := compareMultisig_iff.mpr ⟨m, hm, pushes, keys, hpushes, n, hn, rfl, rfl⟩
  have hnat := toNat_smallInteger hm
  have hne : ∀ op : Opcode, 96 < op.toNat → smallInteger m ≠ op := by
    rintro op hout rfl
    split_ifs at hnat <;> omega
  have hpushdata : smallInteger m = OP_0 ∨ OP_PUSHDATA4 < smallInteger m := by
    refine (smallInteger_range hm).imp id fun hge => ?_
    exact UInt8.lt_of_lt_of_le (by decide) hge.1
  have hscript : [smallInteger m] ++ pushes.flatten ++ [smallInteger n, OP_CHECKMULTISIG] =
      smallInteger m :: (pushes.flatten ++ [smallInteger n, OP_CHECKMULTISIG]) := rfl
  rw [hscript] at htemplate ⊢
  have hshort := shortcuts_eq_none (pushes.flatten ++ [smallInteger n, OP_CHECKMULTISIG])
    (hne OP_HASH160 (by decide)) (hne OP_RETURN (by decide))
  have hwitness : isWitnessProgram
      (smallInteger m :: (pushes.flatten ++ [smallInteger n, OP_CHECKMULTISIG])) = none := by
    cases hpushes with
    | nil => rfl
    | cons hpush _ =>
      rw [flatten_cons, append_assoc]
      exact isWitnessProgram_multisig hpush (by simp)
  have hpubkeyhash : compareTemplate 6
      (smallInteger m :: (pushes.flatten ++ [smallInteger n, OP_CHECKMULTISIG]))
      [OP_DUP, OP_HASH160, OP_PUBKEYHASH, OP_EQUALVERIFY, OP_CHECKSIG] [] = none := by
    refine eq_none_iff_forall_ne_some.mpr fun sols hsols => ?_
    obtain ⟨push, hash, -, -, heq, -⟩ := comparePubkeyhash_iff.mp hsols
    exact hne OP_DUP (by decide) (List.cons.inj heq).1
  unfold solver
  rw [hshort.1, hwitness, hshort.2]
  dsimp only
  rw [if_neg Bool.false_ne_true, if_neg Bool.false_ne_true, scanTemplates_eq, comparePubkey_eq_none _ hpushdata,
    hpubkeyhash, htemplate]

lemma solver_of_standard {script : CScript} {type : TxnOutType} {sols : List Bytes}
    (h : StandardScript script type sols) (typeRet : TxnOutType) :
    solver script typeRet = ⟨true, type, sols⟩ := by
  cases h with
  | @pubkey push key hpush =>
    have htemplate := comparePubkey_iff.mpr ⟨push, key, hpush, rfl, rfl⟩
    obtain ⟨op, tail, rfl, hle, hne, -⟩ := hpush.1.exists_cons (by have := hpush.2; omega)
    have hrange : ∀ op' : Opcode, OP_PUSHDATA4 < op' → op ≠ op' := by
      rintro op' hlt rfl
      exact absurd hlt (UInt8.not_lt.mpr hle)
    have hshort := shortcuts_eq_none (tail ++ [OP_CHECKSIG]) (hrange OP_HASH160 (by decide))
      (hrange OP_RETURN (by decide))
    have hwitness := isWitnessProgram_eq_none (tail ++ [OP_CHECKSIG])
      ⟨hne, Or.inl (UInt8.lt_of_le_of_lt hle (by decide))⟩
    rw [cons_append] at htemplate ⊢
    unfold solver
    rw [hshort.1, hwitness, hshort.2]
    dsimp only
    rw [if_neg Bool.false_ne_true, if_neg Bool.false_ne_true, scanTemplates_eq, htemplate]
  | @pubkeyhash push hash hpush hlength =>
    have htemplate := comparePubkeyhash_iff.mpr ⟨push, hash, hpush, hlength, rfl, rfl⟩
    have hshort := shortcuts_eq_none (OP_HASH160 :: push ++ [OP_EQUALVERIFY, OP_CHECKSIG])
      (by decide : OP_DUP ≠ OP_HASH160) (by decide)
    have hwitness := isWitnessProgram_eq_none (OP_HASH160 :: push ++ [OP_EQUALVERIFY, OP_CHECKSIG])
      (by decide : OP_DUP ≠ OP_0 ∧ (OP_DUP < OP_1 ∨ OP_16 < OP_DUP))
    have hscript : [OP_DUP, OP_HASH160] ++ push ++ [OP_EQUALVERIFY, OP_CHECKSIG] =
        OP_DUP :: (OP_HASH160 :: push ++ [OP_EQUALVERIFY, OP_CHECKSIG]) := rfl
    rw [hscript] at htemplate ⊢
    unfold solver
    rw [hshort.1, hwitness, hshort.2]
    dsimp only
    rw [if_neg Bool.false_ne_true, if_neg Bool.false_ne_true, scanTemplates_eq,
      comparePubkey_eq_none _ (by decide), htemplate]
  | @multisig m pushes keys hm hle hn hpushes =>
    have hm₁₆ : m ≤ 16 := hle.trans hn
    rw [solver_multisigForm hm₁₆ hn hpushes, if_neg]
    rw [badMultisigCounts_iff hm₁₆ hn]
    exact not_not_intro ⟨hm, hle, rfl⟩
  | @scripthash hash hlength =>
    unfold solver
    rw [if_pos (isPayToScriptHash_iff.mpr ⟨hash, hlength, rfl⟩)]
    have hhash : (([OP_HASH160, 20] ++ hash ++ [OP_EQUAL]).drop 2).take 20 = hash := take_left' hlength
    rw [hhash]
  | @nullData pushes hpushes =>
    have hshort : isPayToScriptHash (OP_RETURN :: pushes) = false := by
      rw [Bool.eq_false_iff, Ne, isPayToScriptHash_iff]
      rintro ⟨hash, -, heq⟩
      exact absurd (List.cons.inj heq).1 (by decide)
    unfold solver
    rw [hshort, isWitnessProgram_eq_none pushes (by decide)]
    dsimp only
    rw [if_neg Bool.false_ne_true, if_pos (isNullData_iff.mpr ⟨pushes, hpushes, rfl⟩)]
  | @witnessKeyhash program hlength =>
    have hshort := shortcuts_eq_none (20 :: program) (by decide : OP_0 ≠ OP_HASH160) (by decide)
    have hwitness : isWitnessProgram (OP_0 :: 20 :: program) = some (0, program) :=
      isWitnessProgram_iff.mpr ⟨by decide, by omega, by omega, by rw [hlength]; rfl⟩
    unfold solver
    rw [hshort.1, hwitness]
    dsimp only
    rw [if_neg Bool.false_ne_true, if_pos ⟨rfl, hlength⟩]
  | @witnessScripthash program hlength =>
    have hshort := shortcuts_eq_none (32 :: program) (by decide : OP_0 ≠ OP_HASH160) (by decide)
    have hwitness : isWitnessProgram (OP_0 :: 32 :: program) = some (0, program) :=
      isWitnessProgram_iff.mpr ⟨by decide, by omega, by omega, by rw [hlength]; rfl⟩
    unfold solver
    rw [hshort.1, hwitness]
    dsimp only
    rw [if_neg Bool.false_ne_true, if_neg (by omega), if_pos ⟨rfl, hlength⟩]

lemma standard_of_solver {script : CScript} {typeRet type : TxnOutType} {sols : List Bytes}
    (h : solver script typeRet = ⟨true, type, sols⟩) : StandardScript script type sols := by
  unfold solver at h
  by_cases hp2sh : isPayToScriptHash script = true
  · rw [if_pos hp2sh] at h
    obtain ⟨hash, hlength, rfl⟩ := isPayToScriptHash_iff.mp hp2sh
    have hhash : (([OP_HASH160, 20] ++ hash ++ [OP_EQUAL]).drop 2).take 20 = hash := take_left' hlength
    rw [hhash] at h
    cases h
    exact .scripthash hlength
  rw [if_neg hp2sh] at h
  cases hwitness : isWitnessProgram script with
  | some found =>
    obtain ⟨version, program⟩ := found
    obtain ⟨-, -, -, rfl⟩ := isWitnessProgram_iff.mp hwitness
    rw [hwitness] at h
    dsimp only at h
    split_ifs at h with hkeyhash hscripthash
    · obtain ⟨rfl, hlength⟩ := hkeyhash
      cases h
      rw [hlength]
      exact .witnessKeyhash hlength
    · obtain ⟨rfl, hlength⟩ := hscripthash
      cases h
      rw [hlength]
      exact .witnessScripthash hlength
    · cases h
  | none =>
    rw [hwitness] at h
    dsimp only at h
    by_cases hnull : isNullData script = true
    · rw [if_pos hnull] at h
      obtain ⟨pushes, hpushes, rfl⟩ := isNullData_iff.mp hnull
      cases h
      exact .nullData hpushes
    · rw [if_neg hnull, scanTemplates_eq] at h
      split at h
      · next sols' hpubkey =>
        obtain ⟨push, key, hpush, rfl, rfl⟩ := comparePubkey_iff.mp hpubkey
        cases h
        exact .pubkey hpush
      · split at h
        · next sols' hpubkeyhash =>
          obtain ⟨push, hash, hpush, hlength, rfl, rfl⟩ := comparePubkeyhash_iff.mp hpubkeyhash
          cases h
          exact .pubkeyhash hpush hlength
        · split at h
          · next sols' hmultisig =>
            obtain ⟨m, hm, pushes, keys, hpushes, n, hn, rfl, rfl⟩ := compareMultisig_iff.mp hmultisig
            split_ifs at h with hcounts
            · cases h
            · rw [badMultisigCounts_iff hm hn, not_not] at hcounts
              obtain ⟨hm, hle, rfl⟩ := hcounts
              cases h
              exact .multisig hm hle hn hpushes
          · cases h

/-- `Solver` accepts the standard scripts, with their types and solutions, and no others. -/
theorem solver_iff {script : CScript} {typeRet type : TxnOutType} {sols : List Bytes} :
    solver script typeRet = ⟨true, type, sols⟩ ↔ StandardScript script type sols :=
  ⟨standard_of_solver, fun h => solver_of_standard h typeRet⟩

/-! ### The scripts that are made -/

lemma pushData_eq {b : Bytes} (h : b.length < 2 ^ 32) (script : CScript) :
    ∃ push, PushesData push b ∧ script.pushData b = script ++ push := by
  have hsize : OP_PUSHDATA1.toNat = 76 := rfl
  unfold pushData
  rw [hsize]
  split_ifs with hdirect hone htwo
  · have hle : UInt8.ofNat b.length ≤ OP_PUSHDATA4 := by
      rw [UInt8.le_iff_toNat_le, UInt8.toNat_ofNat', mod_eq_of_lt (by omega)]
      exact (show b.length ≤ 78 by omega)
    exact ⟨UInt8.ofNat b.length :: b, ⟨_, hle, .direct hdirect⟩, append_assoc _ _ _⟩
  · refine ⟨_, ⟨_, by decide, .pushdata1 (by omega)⟩, ?_⟩
    rw [append_assoc]
    rfl
  · exact ⟨_, ⟨_, by decide, .pushdata2 (by omega)⟩, append_assoc _ _ _⟩
  · exact ⟨_, ⟨_, by decide, .pushdata4 h⟩, append_assoc _ _ _⟩

namespace StoredPubKey

lemma size_cases (pubKey : StoredPubKey) : pubKey.size = 33 ∨ pubKey.size = 65 ∨ pubKey.size = 0 := by
  unfold size pubKeyLen
  split_ifs
  · exact Or.inl rfl
  · exact Or.inr (Or.inl rfl)
  · exact Or.inr (Or.inr rfl)

lemma length_bytes (pubKey : StoredPubKey) : pubKey.bytes.length = pubKey.size := by
  have hsize := pubKey.size_cases
  rw [bytes, length_take, pubKey.vch.length_data]
  omega

lemma pushData_bytes {pubKey : StoredPubKey} (h : pubKey.isValid = true) (script : CScript) :
    ∃ push, PushesKey push pubKey.bytes ∧ script.pushData pubKey.bytes = script ++ push := by
  have hpos : 0 < pubKey.size := of_decide_eq_true h
  have hsize := pubKey.size_cases
  have hlength := pubKey.length_bytes
  obtain ⟨push, hpush, hscript⟩ := pushData_eq (show pubKey.bytes.length < 2 ^ 32 by omega) script
  exact ⟨push, ⟨hpush, by omega, by omega⟩, hscript⟩

end StoredPubKey

lemma encodeOpN_eq {n : ℕ} (hn : n ≤ 16) : encodeOpN n = some (smallInteger n) := by
  have hrange : ∀ k : ℕ, k < 17 → (if (k : ℤ) = 0 then OP_0 else OP_1 + UInt8.ofNat (k : ℤ).toNat - 1) =
      smallInteger k := by
    decide
  rw [encodeOpN, if_pos (by omega), hrange n (by omega)]

lemma foldl_pushData {keys : List StoredPubKey} (h : ∀ key ∈ keys, key.isValid = true) (script : CScript) :
    ∃ pushes, List.Forall₂ PushesKey pushes (keys.map StoredPubKey.bytes) ∧
      keys.foldl (fun script key => pushData script key.bytes) script = script ++ pushes.flatten := by
  induction keys generalizing script with
  | nil => exact ⟨[], .nil, (append_nil _).symm⟩
  | cons key keys ih =>
    obtain ⟨push, hpush, hscript⟩ := StoredPubKey.pushData_bytes (h key mem_cons_self) script
    obtain ⟨pushes, hpushes, hrest⟩ := ih (fun k hk => h k (mem_cons_of_mem _ hk)) (script ++ push)
    refine ⟨push :: pushes, .cons hpush hpushes, ?_⟩
    rw [foldl_cons, hscript, hrest, flatten_cons, append_assoc]

lemma standard_getScriptForMultisig {nRequired : ℕ} {keys : List StoredPubKey} (hone : 1 ≤ nRequired)
    (hle : nRequired ≤ keys.length) (hlength : keys.length ≤ 16) (hvalid : ∀ key ∈ keys, key.isValid = true) :
    ∃ script, getScriptForMultisig nRequired keys = some script ∧
      StandardScript script TX_MULTISIG
        ([[UInt8.ofNat nRequired]] ++ keys.map StoredPubKey.bytes ++ [[UInt8.ofNat keys.length]]) := by
  obtain ⟨pushes, hpushes, hscript⟩ := foldl_pushData hvalid (pushOpcode [] (smallInteger nRequired))
  have hmap : (keys.map StoredPubKey.bytes).length = keys.length := length_map _
  have hstandard := StandardScript.multisig hone (by omega) (by omega) hpushes
  rw [hmap] at hstandard
  refine ⟨_, ?_, hstandard⟩
  rw [getScriptForMultisig, encodeOpN_eq (hle.trans hlength), encodeOpN_eq hlength]
  dsimp only [bind, Option.bind, pure]
  rw [hscript, pushOpcode, pushOpcode, pushOpcode, nil_append, append_assoc]
  rfl

/-- `Solver` accepts the standard scripts and no others, and finds in the scripts made for
destinations, for valid keys and for several valid keys what they were made from. -/
theorem solver_exact :
    (∀ script typeRet type sols, solver script typeRet = ⟨true, type, sols⟩ ↔ StandardScript script type sols) ∧
    (∀ keyID typeRet, solver (getScriptForDestination (.keyID keyID)) typeRet = ⟨true, TX_PUBKEYHASH, [keyID.data]⟩) ∧
    (∀ scriptID typeRet,
      solver (getScriptForDestination (.scriptID scriptID)) typeRet = ⟨true, TX_SCRIPTHASH, [scriptID.data]⟩) ∧
    (∀ pubKey : StoredPubKey, pubKey.isValid = true → ∀ typeRet,
      solver (getScriptForRawPubKey pubKey) typeRet = ⟨true, TX_PUBKEY, [pubKey.bytes]⟩) ∧
    ∀ (nRequired : ℤ) (keys : List StoredPubKey), 1 ≤ nRequired → nRequired ≤ keys.length → keys.length ≤ 16 →
      (∀ key ∈ keys, key.isValid = true) → ∀ typeRet, ∃ script,
        getScriptForMultisig nRequired keys = some script ∧
        solver script typeRet = ⟨true, TX_MULTISIG,
          [[UInt8.ofNat nRequired.toNat]] ++ keys.map StoredPubKey.bytes ++ [[UInt8.ofNat keys.length]]⟩ := by
  refine ⟨fun _ _ _ _ => solver_iff, ?_, ?_, ?_, ?_⟩
  · intro keyID typeRet
    obtain ⟨push, hpush, hscript⟩ := pushData_eq (b := keyID.data) (by rw [keyID.length_data]; decide)
      (pushOpcode (pushOpcode [] OP_DUP) OP_HASH160)
    have hstandard := StandardScript.pubkeyhash hpush keyID.length_data
    have hmade : getScriptForDestination (.keyID keyID) =
        [OP_DUP, OP_HASH160] ++ push ++ [OP_EQUALVERIFY, OP_CHECKSIG] := by
      rw [getScriptForDestination, hscript]
      simp [pushOpcode]
    rw [hmade]
    exact solver_of_standard hstandard typeRet
  · intro scriptID typeRet
    have hscript : getScriptForDestination (.scriptID scriptID) = [OP_HASH160, 20] ++ scriptID.data ++ [OP_EQUAL] := by
      rw [getScriptForDestination, pushData, scriptID.length_data]
      rfl
    rw [hscript]
    exact solver_of_standard (.scripthash scriptID.length_data) typeRet
  · intro pubKey hvalid typeRet
    obtain ⟨push, hpush, hscript⟩ := StoredPubKey.pushData_bytes hvalid []
    rw [getScriptForRawPubKey, hscript, pushOpcode, nil_append]
    exact solver_of_standard (.pubkey hpush) typeRet
  · intro nRequired keys hone hle hlength hvalid typeRet
    obtain ⟨k, rfl⟩ := Int.eq_ofNat_of_zero_le (by omega : 0 ≤ nRequired)
    obtain ⟨script, hscript, hstandard⟩ :=
      standard_getScriptForMultisig (by omega : 1 ≤ k) (by omega) hlength hvalid
    exact ⟨script, hscript, solver_of_standard hstandard typeRet⟩

def compressedKey : StoredPubKey := ⟨⟨2 :: List.replicate 64 7, rfl⟩⟩

/-- A script for one of two keys is found again. -/
theorem solver_exact_multisig : ∃ script, getScriptForMultisig 1 [compressedKey, compressedKey] = some script ∧
    solver script .unnamed = ⟨true, TX_MULTISIG, [[1], compressedKey.bytes, compressedKey.bytes, [2]]⟩ :=
  solver_exact.2.2.2.2 1 [compressedKey, compressedKey] (by decide) (by decide) (by decide) (by decide) .unnamed

/-- The key that the default constructor of `CPubKey` leaves. -/
def invalidKey : StoredPubKey := ⟨⟨0xff :: List.replicate 64 0, rfl⟩⟩

/-- A key that is not valid is pushed as an empty vector, and the script is not recognised. -/
theorem solver_rejects_invalidKey :
    ¬∀ (nRequired : ℤ) (keys : List StoredPubKey), 1 ≤ nRequired → nRequired ≤ keys.length → keys.length ≤ 16 →
      ∃ script, getScriptForMultisig nRequired keys = some script ∧
        solver script TX_NONSTANDARD = ⟨true, TX_MULTISIG,
          [[UInt8.ofNat nRequired.toNat]] ++ keys.map StoredPubKey.bytes ++ [[UInt8.ofNat keys.length]]⟩ := by
  intro h
  obtain ⟨script, hscript, hsolver⟩ := h 1 [invalidKey] (by decide) (by decide) (by decide)
  have hmade : getScriptForMultisig 1 [invalidKey] = some [OP_1, OP_0, OP_1, OP_CHECKMULTISIG] := by decide +kernel
  rw [hmade] at hscript
  cases hscript
  exact absurd hsolver (by decide +kernel)

end MutableBitcoin
