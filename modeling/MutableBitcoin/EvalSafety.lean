import MutableBitcoin.MultisigMatching
import MutableBitcoin.ScriptNumEncoding

/-!
# The interpreter stays inside its limits

Every index and every pop of `EvalScript` stays inside the stack, and its assertions hold. No
element grows beyond 520 bytes.
-/

namespace MutableBitcoin
open Lib Opcode ScriptError List Triple Nat

section Numbers

lemma natAbs_setVch_lt (vch : Bytes) : (CScriptNum.setVch vch).natAbs < 256 ^ vch.length := by
  have hvalue := leValue_lt vch
  unfold CScriptNum.setVch
  split
  · exact pow_pos (by norm_num) _
  · split_ifs
    · rw [Int.natAbs_neg, Int.natAbs_natCast]
      exact (mod_le _ _).trans_lt hvalue
    · rw [Int.natAbs_natCast]
      exact hvalue

lemma natAbs_ofVch_lt {vch : Bytes} {fRequireMinimal : Bool} {nMaxNumSize : ℕ} {value : ℤ}
    (h : CScriptNum.ofVch vch fRequireMinimal nMaxNumSize = .ok value) : value.natAbs < 256 ^ nMaxNumSize := by
  unfold CScriptNum.ofVch at h
  split_ifs at h with hsize
  rw [← Except.ok.inj h]
  exact (natAbs_setVch_lt vch).trans_le (Nat.pow_le_pow_right (by norm_num) (Nat.le_of_not_lt hsize))

def unaryOpcodes : List Opcode := [OP_1ADD, OP_1SUB, OP_NEGATE, OP_ABS, OP_NOT, OP_0NOTEQUAL]

def binaryOpcodes : List Opcode :=
  [OP_ADD, OP_SUB, OP_BOOLAND, OP_BOOLOR, OP_NUMEQUAL, OP_NUMEQUALVERIFY, OP_NUMNOTEQUAL, OP_LESSTHAN,
    OP_GREATERTHAN, OP_LESSTHANOREQUAL, OP_GREATERTHANOREQUAL, OP_MIN, OP_MAX]

lemma natAbs_numBool_lt (b : Bool) : (numBool b).natAbs < 2 ^ 40 := by
  cases b with
  | false => decide
  | true => decide

lemma exists_unaryResult {opcode : Opcode} (hopcode : opcode ∈ unaryOpcodes) {bn : ℤ} (hbn : bn.natAbs < 2 ^ 32) :
    ∃ result, unaryResult opcode bn = some result ∧ result.natAbs < 2 ^ 40 := by
  have hneg : CScriptNum.neg bn = some (-bn) := if_pos (by rw [INT64_MIN]; omega)
  unfold unaryResult
  split_ifs with hadd hsub hnegate habs hlt hnot hnotEqual
  · exact ⟨bn + 1, if_pos (by rw [INT64_MAX]; omega), by omega⟩
  · exact ⟨bn - 1, if_pos (by rw [INT64_MIN]; omega), by omega⟩
  · exact ⟨-bn, hneg, by omega⟩
  · exact ⟨-bn, hneg, by omega⟩
  · exact ⟨bn, rfl, by omega⟩
  · exact ⟨_, rfl, natAbs_numBool_lt _⟩
  · exact ⟨_, rfl, natAbs_numBool_lt _⟩
  · simp only [unaryOpcodes, mem_cons, not_mem_nil, or_false] at hopcode
    tauto

lemma exists_binaryResult {opcode : Opcode} (hopcode : opcode ∈ binaryOpcodes) {bn1 bn2 : ℤ}
    (hbn1 : bn1.natAbs < 2 ^ 32) (hbn2 : bn2.natAbs < 2 ^ 32) :
    ∃ result, binaryResult opcode bn1 bn2 = some result ∧ result.natAbs < 2 ^ 40 := by
  simp only [binaryOpcodes, mem_cons, not_mem_nil, or_false] at hopcode
  obtain rfl | rfl | rfl | rfl | rfl | rfl | rfl | rfl | rfl | rfl | rfl | rfl | rfl := hopcode
  · exact ⟨bn1 + bn2, rfl, by omega⟩
  · exact ⟨bn1 - bn2, rfl, by omega⟩
  · exact ⟨_, rfl, natAbs_numBool_lt _⟩
  · exact ⟨_, rfl, natAbs_numBool_lt _⟩
  · exact ⟨_, rfl, natAbs_numBool_lt _⟩
  · exact ⟨_, rfl, natAbs_numBool_lt _⟩
  · exact ⟨_, rfl, natAbs_numBool_lt _⟩
  · exact ⟨_, rfl, natAbs_numBool_lt _⟩
  · exact ⟨_, rfl, natAbs_numBool_lt _⟩
  · exact ⟨_, rfl, natAbs_numBool_lt _⟩
  · exact ⟨_, rfl, natAbs_numBool_lt _⟩
  · exact ⟨if bn1 < bn2 then bn1 else bn2, rfl, by split_ifs <;> omega⟩
  · exact ⟨if bn1 > bn2 then bn1 else bn2, rfl, by split_ifs <;> omega⟩

end Numbers

section Safe

/-- No element is longer than 520 bytes. -/
structure ElementsBounded (s : EvalState) : Prop where
  stack : ∀ vch ∈ s.stack, vch.length ≤ MAX_SCRIPT_ELEMENT_SIZE
  altstack : ∀ vch ∈ s.altstack, vch.length ≤ MAX_SCRIPT_ELEMENT_SIZE

/-- How a run may stop: the function returns an error, the constructor of `CScriptNum` throws, or an assertion
of the checker fails. -/
inductive AllowedStop (checker : SignatureChecker) (sigversion : SigVersion) : Interrupt → Prop
  | returned (serror : ScriptError) : AllowedStop checker sigversion (.returned serror)
  | scriptnumError (e : ScriptNumError) : AllowedStop checker sigversion (.thrown (.scriptnumError e))
  | checker {vchSig vchPubKey : Bytes} {scriptCode : CScript}
      (h : checker.checkSig vchSig vchPubKey scriptCode sigversion = none) : AllowedStop checker sigversion .aborted

/-- The stack has `n` elements. -/
structure Room (n : ℕ) (s : EvalState) : Prop where
  bounded : ElementsBounded s
  le : n ≤ s.stack.length

lemma Room.mono {m n : ℕ} {s : EvalState} (h : Room n s) (hle : m ≤ n) : Room m s := ⟨h.bounded, hle.trans h.le⟩

variable {checker : SignatureChecker} {sigversion : SigVersion} {flags : UInt32} {α β : Type} {i j n : ℕ}

/-- The run stops only as allowed, and its elements stay bounded. -/
abbrev Safe (checker : SignatureChecker) (sigversion : SigVersion) (pre : EvalState → Prop) (x : Interp α)
    (post : α → EvalState → Prop) : Prop :=
  Triple pre x post (fun e s => AllowedStop checker sigversion e ∧ ElementsBounded s)

lemma safe_throw {serror : ScriptError} {pre : EvalState → Prop} {post : α → EvalState → Prop}
    (hpre : ∀ s, pre s → ElementsBounded s) : Safe checker sigversion pre (throw (.returned serror)) post :=
  fun s hs => ⟨.returned serror, hpre s hs⟩

lemma safe_test {pre : EvalState → Prop} {c : EvalState → Prop} [DecidablePred c] {e : ScriptError}
    (hpre : ∀ s, pre s → ElementsBounded s) :
    Safe checker sigversion pre (fun s => scriptErrorIf (c s) e s) (fun _ s => ¬c s ∧ pre s) :=
  stopIf (fun s hs _ => ⟨.returned e, hpre s hs⟩)

lemma safe_scriptErrorIf {c : Prop} [Decidable c] {e : ScriptError} :
    Safe checker sigversion (Room n) (scriptErrorIf c e) (fun _ => Room n) :=
  (safe_test fun _ hs => hs.bounded).weaken (fun _ _ h => h.2)

lemma safe_needStack {e : ScriptError} : Safe checker sigversion (Room i) (needStack n e) (fun _ => Room n) :=
  (safe_test fun _ hs => hs.bounded).weaken (fun _ _ h => ⟨h.2.bounded, Nat.le_of_not_lt h.1⟩)

lemma safe_stacktop (hi : 0 < i) (hn : i ≤ n) : Safe checker sigversion (Room n) (stacktop i)
    (fun vch s => vch.length ≤ MAX_SCRIPT_ELEMENT_SIZE ∧ Room n s) := by
  intro s hs
  have hle := hs.le
  have hget : s.stack[s.stack.length - i]? = some (s.stack.get ⟨s.stack.length - i, by omega⟩) :=
    getElem?_eq_getElem (by omega)
  have htop : stacktop i s = .ok (s.stack.get ⟨s.stack.length - i, by omega⟩) s := by
    rw [stacktop, topOf, if_pos (hn.trans hle), hget]
    rfl
  rw [htop]
  exact ⟨hs.bounded.stack _ (getElem_mem _), hs⟩

lemma safe_stacktop_bind {f : Bytes → Interp α} {post : α → EvalState → Prop} (hi : 0 < i) (hn : i ≤ n)
    (hf : ∀ vch : Bytes, vch.length ≤ MAX_SCRIPT_ELEMENT_SIZE → Safe checker sigversion (Room n) (f vch) post) :
    Safe checker sigversion (Room n) (stacktop i >>= f) post :=
  (safe_stacktop hi hn).bind fun vch => assume (hf vch)

lemma safe_popstack : Safe checker sigversion (Room (n + 1)) popstack (fun _ => Room n) := by
  rintro ⟨stack, altstack, vfExec, nOpCount, code⟩ ⟨hbounded, hle⟩
  cases stack with
  | nil => exact absurd hle (not_succ_le_zero n)
  | cons vch stack =>
    refine ⟨⟨fun v hv => hbounded.stack v (dropLast_subset _ hv), hbounded.altstack⟩, ?_⟩
    rw [length_dropLast]
    exact le_sub_one_of_lt hle

lemma safe_pushBack {vch : Bytes} (h : vch.length ≤ MAX_SCRIPT_ELEMENT_SIZE) :
    Safe checker sigversion (Room n) (pushBack vch) (fun _ => Room (n + 1)) := by
  rintro s ⟨hbounded, hle⟩
  refine ⟨⟨?_, hbounded.altstack⟩, ?_⟩
  · intro v hv
    obtain hv | hv := mem_append.mp hv
    · exact hbounded.stack v hv
    · rw [mem_singleton.mp hv]
      exact h
  · rw [length_append]
    exact succ_le_succ hle

lemma safe_eraseStack (hle : j ≤ i) (hn : i ≤ n) :
    Safe checker sigversion (Room n) (eraseStack i j) (fun _ => Room (n - (i - j))) := by
  rintro s ⟨hbounded, hroom⟩
  unfold eraseStack
  dsimp only
  rw [if_neg (by omega)]
  refine ⟨⟨?_, hbounded.altstack⟩, ?_⟩
  · intro v hv
    obtain hv | hv := mem_append.mp hv
    · exact hbounded.stack v (mem_of_mem_take hv)
    · exact hbounded.stack v (mem_of_mem_drop hv)
  · simp only [length_append, length_take, length_drop]
    omega

lemma safe_insertStack {vch : Bytes} (h : vch.length ≤ MAX_SCRIPT_ELEMENT_SIZE) (hn : i ≤ n) :
    Safe checker sigversion (Room n) (insertStack i vch) (fun _ => Room (n + 1)) := by
  rintro s ⟨hbounded, hroom⟩
  unfold insertStack
  dsimp only
  rw [if_neg (by omega)]
  refine ⟨⟨?_, hbounded.altstack⟩, ?_⟩
  · intro v hv
    obtain hv | hv := mem_append.mp hv
    · exact hbounded.stack v (mem_of_mem_take hv)
    · obtain rfl | hv := mem_cons.mp hv
      · exact h
      · exact hbounded.stack v (mem_of_mem_drop hv)
  · simp only [length_append, length_take, length_cons, length_drop]
    omega

lemma safe_swapStack (hi : 0 < i) (hin : i ≤ n) (hj : 0 < j) (hjn : j ≤ n) :
    Safe checker sigversion (Room n) (swapStack i j) (fun _ => Room n) := by
  refine safe_stacktop_bind hi hin fun vch₁ h₁ => ?_
  refine safe_stacktop_bind hj hjn fun vch₂ h₂ => ?_
  apply Triple.modify
  rintro s ⟨hbounded, hroom⟩
  refine ⟨⟨?_, hbounded.altstack⟩, by simpa using hroom⟩
  intro v hv
  obtain hv | rfl := mem_or_eq_of_mem_set hv
  · obtain hv | rfl := mem_or_eq_of_mem_set hv
    · exact hbounded.stack v hv
    · exact h₂
  · exact h₁

lemma safe_ofReturned {x : Except ScriptError α} :
    Safe checker sigversion (Room n) (ofReturned x) (fun _ => Room n) := by
  intro s hs
  cases x with
  | ok a => exact hs
  | error e => exact ⟨.returned e, hs.bounded⟩

lemma safe_readNum {nMaxNumSize : ℕ} (hi : 0 < i) (hn : i ≤ n) : Safe checker sigversion (Room n)
    (readNum flags i nMaxNumSize) (fun bn s => bn.natAbs < 256 ^ nMaxNumSize ∧ Room n s) := by
  refine safe_stacktop_bind hi hn fun vch _ => ?_
  intro s hs
  cases hnum : CScriptNum.ofVch vch (fRequireMinimal flags) nMaxNumSize with
  | ok bn => exact ⟨natAbs_ofVch_lt hnum, hs⟩
  | error e => exact ⟨.scriptnumError e, hs.bounded⟩

lemma safe_readDefaultNum_bind {f : ℤ → Interp α} {post : α → EvalState → Prop} (hi : 0 < i) (hn : i ≤ n)
    (hf : ∀ bn : ℤ, bn.natAbs < 2 ^ 32 → Safe checker sigversion (Room n) (f bn) post) :
    Safe checker sigversion (Room n) (readDefaultNum flags i >>= f) post :=
  (safe_readNum hi hn).bind fun bn => assume (hf bn)

lemma safe_ofAssert_bind {x : Option β} {a : β} {f : β → Interp α} {post : α → EvalState → Prop} (h : x = some a)
    (hf : Safe checker sigversion (Room n) (f a) post) : Safe checker sigversion (Room n) (ofAssert x >>= f) post := by
  rw [h]
  exact hf

lemma safe_verifyResult {c fValue : Bool} {e : ScriptError} :
    Safe checker sigversion (Room 1) (verifyResult c fValue e) (fun _ => Room 0) := by
  unfold verifyResult
  apply Triple.ite
  · intro _
    exact ite (fun _ => safe_popstack) (fun _ => safe_throw fun _ hs => hs.bounded)
  · intro _
    exact pure (fun s hs => hs.mono (zero_le 1))

lemma Safe.toRoom {x : Interp α} {post : α → EvalState → Prop} {m : ℕ} (h : Safe checker sigversion (Room n) x post)
    (hpost : ∀ a s, post a s → Room m s) : Safe checker sigversion (Room n) x (fun _ => Room 0) :=
  h.weaken (fun a s ha => (hpost a s ha).mono (zero_le m))

end Safe

section Blocks

variable {crypto : ScriptCrypto} {checker : SignatureChecker} {sigversion : SigVersion} {flags : UInt32} {n : ℕ}
  {opcode : Opcode}

lemma length_vchBool_le (b : Bool) : (vchBool b).length ≤ MAX_SCRIPT_ELEMENT_SIZE := by
  cases b with
  | false => decide
  | true => decide

lemma safe_pushNum {value : ℤ} (h : value.natAbs < 2 ^ 40) :
    Safe checker sigversion (Room n) (pushBack (CScript.scriptNumSerialize value)) (fun _ => Room (n + 1)) :=
  safe_pushBack ((length_scriptNumSerialize_le (k := 5) h).trans (by decide))

lemma safe_evalCheckLockTimeVerify :
    Safe checker sigversion (Room 0) (evalCheckLockTimeVerify flags checker) (fun _ => Room 0) := by
  unfold evalCheckLockTimeVerify
  apply Triple.ite
  · intro _
    exact safe_scriptErrorIf
  · intro _
    apply safe_needStack.bind
    intro _
    apply (safe_readNum one_pos (le_refl 1)).bind
    intro nLockTime
    apply Triple.assume
    intro _
    apply safe_scriptErrorIf.bind
    intro _
    exact safe_scriptErrorIf.toRoom (fun _ _ h => h)

lemma safe_evalCheckSequenceVerify :
    Safe checker sigversion (Room 0) (evalCheckSequenceVerify flags checker) (fun _ => Room 0) := by
  unfold evalCheckSequenceVerify
  apply Triple.ite
  · intro _
    exact safe_scriptErrorIf
  · intro _
    apply safe_needStack.bind
    intro _
    apply (safe_readNum one_pos (le_refl 1)).bind
    intro nSequence
    apply Triple.assume
    intro _
    apply safe_scriptErrorIf.bind
    intro _
    exact safe_scriptErrorIf.toRoom (fun _ _ h => h)

lemma safe_pushExec {fValue : Bool} : Safe checker sigversion (Room n) (pushExec fValue) (fun _ => Room n) :=
  modify (fun _ hs => ⟨⟨hs.bounded.stack, hs.bounded.altstack⟩, hs.le⟩)

lemma safe_evalIf {fExec : Bool} :
    Safe checker sigversion (Room 0) (evalIf flags sigversion opcode fExec) (fun _ => Room 0) := by
  unfold evalIf
  apply Triple.ite
  · intro _
    apply safe_needStack.bind
    intro _
    refine safe_stacktop_bind one_pos (le_refl 1) fun vch _ => ?_
    apply safe_scriptErrorIf.bind
    intro _
    apply safe_popstack.bind
    intro _
    exact safe_pushExec
  · intro _
    exact safe_pushExec

lemma safe_modifyExec {f : Bool → List Bool} :
    Safe checker sigversion (Room n) (modifyExec f) (fun _ => Room n) := by
  intro s hs
  unfold modifyExec
  cases s.vfExec.getLast? with
  | none => exact ⟨.returned _, hs.bounded⟩
  | some back => exact ⟨⟨hs.bounded.stack, hs.bounded.altstack⟩, hs.le⟩

lemma safe_evalVerify : Safe checker sigversion (Room 0) evalVerify (fun _ => Room 0) := by
  apply safe_needStack.bind
  intro _
  refine safe_stacktop_bind one_pos (le_refl 1) fun vch _ => ?_
  apply safe_scriptErrorIf.bind
  intro _
  exact safe_popstack

lemma safe_pushAlt {vch : Bytes} (h : vch.length ≤ MAX_SCRIPT_ELEMENT_SIZE) : Safe checker sigversion (Room n)
    (modify fun s => { s with altstack := s.altstack ++ [vch] }) (fun _ => Room n) := by
  apply Triple.modify
  rintro s ⟨hbounded, hle⟩
  refine ⟨⟨hbounded.stack, ?_⟩, hle⟩
  intro v hv
  obtain hv | hv := mem_append.mp hv
  · exact hbounded.altstack v hv
  · rw [mem_singleton.mp hv]
    exact h

lemma safe_evalToAltStack : Safe checker sigversion (Room 0) evalToAltStack (fun _ => Room 0) := by
  apply safe_needStack.bind
  intro _
  refine safe_stacktop_bind one_pos (le_refl 1) fun vch hvch => ?_
  apply (safe_pushAlt hvch).bind
  intro _
  exact safe_popstack

lemma safe_evalFromAltStack : Safe checker sigversion (Room 0) evalFromAltStack (fun _ => Room 0) := by
  rintro s ⟨hbounded, -⟩
  unfold evalFromAltStack
  cases hlast : s.altstack.getLast? with
  | none => exact ⟨.returned _, hbounded⟩
  | some vch =>
    refine ⟨⟨?_, fun v hv => hbounded.altstack v (dropLast_subset _ hv)⟩, zero_le _⟩
    intro v hv
    obtain hv | hv := mem_append.mp hv
    · exact hbounded.stack v hv
    · rw [mem_singleton.mp hv]
      exact hbounded.altstack vch (mem_of_getLast? hlast)

lemma safe_evalPickRoll : Safe checker sigversion (Room 0) (evalPickRoll flags opcode) (fun _ => Room 0) := by
  apply safe_needStack.bind
  intro _
  refine safe_readDefaultNum_bind one_pos (le_succ 1) fun bn _ => ?_
  apply safe_popstack.bind
  intro _
  apply safe_scriptErrorIf.bind
  intro _
  apply safe_needStack.bind
  intro _
  refine safe_stacktop_bind (succ_pos _) (le_refl _) fun vch hvch => ?_
  have hroll : Safe checker sigversion (Room ((CScriptNum.getint bn).toNat + 1))
      (eraseRolled opcode (CScriptNum.getint bn).toNat) (fun _ => Room 0) := by
    apply Triple.ite
    · intro _
      exact (safe_eraseStack (le_succ _) (le_refl _)).toRoom (fun _ _ h => h)
    · intro _
      exact pure (fun s hs => hs.mono (zero_le _))
  apply hroll.bind
  intro _
  exact (safe_pushBack hvch).toRoom (fun _ _ h => h)

lemma safe_evalEqual : Safe checker sigversion (Room 0) (evalEqual opcode) (fun _ => Room 0) := by
  apply safe_needStack.bind
  intro _
  refine safe_stacktop_bind two_pos (le_refl 2) fun vch1 _ => ?_
  refine safe_stacktop_bind one_pos (le_succ 1) fun vch2 _ => ?_
  apply safe_popstack.bind
  intro _
  apply safe_popstack.bind
  intro _
  apply (safe_pushBack (length_vchBool_le _)).bind
  intro _
  exact safe_verifyResult

lemma safe_evalUnary (hopcode : opcode ∈ unaryOpcodes) :
    Safe checker sigversion (Room 0) (evalUnary flags opcode) (fun _ => Room 0) := by
  apply safe_needStack.bind
  intro _
  refine safe_readDefaultNum_bind one_pos (le_refl 1) fun bn hbn => ?_
  obtain ⟨result, hresult, hlt⟩ := exists_unaryResult hopcode hbn
  apply safe_ofAssert_bind hresult
  apply safe_popstack.bind
  intro _
  exact (safe_pushNum hlt).toRoom (fun _ _ h => h)

lemma safe_evalBinary (hopcode : opcode ∈ binaryOpcodes) :
    Safe checker sigversion (Room 0) (evalBinary flags opcode) (fun _ => Room 0) := by
  apply safe_needStack.bind
  intro _
  refine safe_readDefaultNum_bind two_pos (le_refl 2) fun bn1 hbn1 => ?_
  refine safe_readDefaultNum_bind one_pos (le_succ 1) fun bn2 hbn2 => ?_
  obtain ⟨bn, hbn, hlt⟩ := exists_binaryResult hopcode hbn1 hbn2
  apply safe_ofAssert_bind hbn
  apply safe_popstack.bind
  intro _
  apply safe_popstack.bind
  intro _
  apply (safe_pushNum hlt).bind
  intro _
  apply Triple.ite
  · intro _
    refine safe_stacktop_bind one_pos (le_refl 1) fun vch _ => ?_
    exact safe_verifyResult
  · intro _
    exact pure (fun s hs => hs.mono (zero_le 1))

lemma safe_evalWithin : Safe checker sigversion (Room 0) (evalWithin flags) (fun _ => Room 0) := by
  apply safe_needStack.bind
  intro _
  refine safe_readDefaultNum_bind (by decide) (le_refl 3) fun bn1 _ => ?_
  refine safe_readDefaultNum_bind two_pos (by decide) fun bn2 _ => ?_
  refine safe_readDefaultNum_bind one_pos (by decide) fun bn3 _ => ?_
  apply safe_popstack.bind
  intro _
  apply safe_popstack.bind
  intro _
  apply safe_popstack.bind
  intro _
  exact (safe_pushBack (length_vchBool_le _)).toRoom (fun _ _ h => h)

lemma length_hashResult_le (vch : Bytes) : (hashResult crypto opcode vch).length ≤ MAX_SCRIPT_ELEMENT_SIZE := by
  unfold hashResult
  split_ifs
  · rw [(crypto.ripemd160 vch).length_data]
    decide
  · rw [(crypto.sha1 vch).length_data]
    decide
  · rw [(crypto.sha256 vch).length_data]
    decide
  · rw [(crypto.hash160 vch).length_data]
    decide
  · rw [(crypto.hash256 vch).length_data]
    decide
  · decide

lemma safe_evalHash : Safe checker sigversion (Room 0) (evalHash crypto opcode) (fun _ => Room 0) := by
  apply safe_needStack.bind
  intro _
  refine safe_stacktop_bind one_pos (le_refl 1) fun vch _ => ?_
  apply safe_popstack.bind
  intro _
  exact (safe_pushBack (length_hashResult_le vch)).toRoom (fun _ _ h => h)

lemma safe_stacktops (is : List ℕ) (his : ∀ i ∈ is, 0 < i ∧ i ≤ n) : Safe checker sigversion (Room n)
    (is.mapM stacktop) (fun vchs s => (∀ vch ∈ vchs, vch.length ≤ MAX_SCRIPT_ELEMENT_SIZE) ∧ Room n s) := by
  induction is with
  | nil => exact pure (fun s hs => ⟨fun vch hvch => absurd hvch not_mem_nil, hs⟩)
  | cons i is ih =>
    obtain ⟨hi, hn⟩ := his i mem_cons_self
    rw [mapM_cons]
    refine safe_stacktop_bind hi hn fun vch hvch => ?_
    apply (ih fun j hj => his j (mem_cons_of_mem i hj)).bind
    intro vchs
    apply Triple.assume
    intro hvchs
    refine pure (fun s hs => ⟨?_, hs⟩)
    intro v hv
    obtain rfl | hv := mem_cons.mp hv
    · exact hvch
    · exact hvchs v hv

lemma safe_evalDup {is : List ℕ} (his : ∀ i ∈ is, 0 < i ∧ i ≤ n) :
    Safe checker sigversion (Room 0) (evalDup n is) (fun _ => Room 0) := by
  apply safe_needStack.bind
  intro _
  apply (safe_stacktops is his).bind
  intro vchs
  apply Triple.assume
  intro hvchs
  refine strengthen ?_ (fun s hs => hs.mono (zero_le n))
  exact forM fun vch hvch => (safe_pushBack (hvchs vch hvch)).toRoom (fun _ _ h => h)

lemma safe_evalDepth {fExec : Bool} {r : CScript.GetOpResult} :
    Safe checker sigversion (fun s => s.stack.length ≤ MAX_STACK_SIZE ∧ Room 0 s)
      (evalBlock crypto flags checker sigversion fExec r .depth) (fun _ => Room 0) := by
  rintro s ⟨hlength, hs⟩
  have hvalue : ((s.stack.length : ℕ) : ℤ).natAbs < 2 ^ 40 := by
    rw [Int.natAbs_natCast]
    exact hlength.trans_lt (by decide)
  have hpush : Safe checker sigversion (Room 0) (pushBack (CScript.scriptNumSerialize s.stack.length))
      (fun _ => Room 0) := (safe_pushNum hvalue).toRoom (fun _ _ h => h)
  exact hpush s hs

lemma safe_evalBlock_of_ne {fExec : Bool} {r : CScript.GetOpResult} {block : Block}
    (hlabel : switchLabel r.opcodeRet = some (.plain block)) (hne : block ≠ .depth) :
    Safe checker sigversion (Room 0) (evalBlock crypto flags checker sigversion fExec r block) (fun _ => Room 0) := by
  cases block with
  | pushNum =>
    have hlt := r.opcodeRet.toNat_lt
    have hone : OP_1.toNat = 0x51 := rfl
    exact (safe_pushNum (by rw [hone]; omega)).toRoom (fun _ _ h => h)
  | nop => exact pure (fun s hs => hs)
  | checkLockTimeVerify => exact safe_evalCheckLockTimeVerify
  | checkSequenceVerify => exact safe_evalCheckSequenceVerify
  | upgradableNop => exact safe_scriptErrorIf
  | ifNotIf => exact safe_evalIf
  | opElse => exact safe_modifyExec
  | endIf => exact safe_modifyExec
  | verify => exact safe_evalVerify
  | opReturn => exact safe_throw fun _ hs => hs.bounded
  | toAltStack => exact safe_evalToAltStack
  | fromAltStack => exact safe_evalFromAltStack
  | drop2 =>
    apply safe_needStack.bind
    intro _
    apply safe_popstack.bind
    intro _
    exact safe_popstack
  | dup2 => exact safe_evalDup (by decide)
  | dup3 => exact safe_evalDup (by decide)
  | over2 => exact safe_evalDup (by decide)
  | rot2 =>
    apply safe_needStack.bind
    intro _
    refine safe_stacktop_bind (by decide) (le_refl 6) fun vch1 hvch1 => ?_
    refine safe_stacktop_bind (by decide) (le_succ 5) fun vch2 hvch2 => ?_
    apply (safe_eraseStack (by decide) (le_refl 6)).bind
    intro _
    apply (safe_pushBack hvch1).bind
    intro _
    exact (safe_pushBack hvch2).toRoom (fun _ _ h => h)
  | swap2 =>
    apply safe_needStack.bind
    intro _
    apply (safe_swapStack (by decide) (le_refl 4) (by decide) (by decide)).bind
    intro _
    exact (safe_swapStack (by decide) (le_succ 3) (by decide) (by decide)).toRoom (fun _ _ h => h)
  | ifDup =>
    apply safe_needStack.bind
    intro _
    refine safe_stacktop_bind one_pos (le_refl 1) fun vch hvch => ?_
    apply Triple.ite
    · intro _
      exact (safe_pushBack hvch).toRoom (fun _ _ h => h)
    · intro _
      exact pure (fun s hs => hs.mono (zero_le 1))
  | depth => exact absurd rfl hne
  | drop =>
    apply safe_needStack.bind
    intro _
    exact safe_popstack
  | dup => exact safe_evalDup (by decide)
  | nip =>
    apply safe_needStack.bind
    intro _
    exact (safe_eraseStack (by decide) (le_refl 2)).toRoom (fun _ _ h => h)
  | «over» => exact safe_evalDup (by decide)
  | pickRoll => exact safe_evalPickRoll
  | rot =>
    apply safe_needStack.bind
    intro _
    apply (safe_swapStack (by decide) (le_refl 3) (by decide) (by decide)).bind
    intro _
    exact (safe_swapStack (by decide) (le_succ 2) (by decide) (by decide)).toRoom (fun _ _ h => h)
  | swap =>
    apply safe_needStack.bind
    intro _
    exact (safe_swapStack (by decide) (le_refl 2) (by decide) (by decide)).toRoom (fun _ _ h => h)
  | tuck =>
    apply safe_needStack.bind
    intro _
    refine safe_stacktop_bind one_pos (le_succ 1) fun vch hvch => ?_
    exact (safe_insertStack hvch (le_refl 2)).toRoom (fun _ _ h => h)
  | size =>
    apply safe_needStack.bind
    intro _
    refine safe_stacktop_bind one_pos (le_refl 1) fun vch hvch => ?_
    have hvalue : ((vch.length : ℕ) : ℤ).natAbs < 2 ^ 40 := by
      rw [Int.natAbs_natCast]
      exact hvch.trans_lt (by decide)
    exact (safe_pushNum hvalue).toRoom (fun _ _ h => h)
  | equal => exact safe_evalEqual
  | unary => exact safe_evalUnary (opcode_of_switchLabel hlabel (by decide) (by decide))
  | binary => exact safe_evalBinary (opcode_of_switchLabel hlabel (by decide) (by decide))
  | within => exact safe_evalWithin
  | hash => exact safe_evalHash
  | codeSeparator => exact modify (fun _ hs => ⟨⟨hs.bounded.stack, hs.bounded.altstack⟩, hs.le⟩)

lemma safe_evalBlock {fExec : Bool} {r : CScript.GetOpResult} {block : Block}
    (hlabel : switchLabel r.opcodeRet = some (.plain block)) :
    Safe checker sigversion (fun s => s.stack.length ≤ MAX_STACK_SIZE ∧ Room 0 s)
      (evalBlock crypto flags checker sigversion fExec r block) (fun _ => Room 0) := by
  by_cases hdepth : block = .depth
  · rw [hdepth]
    exact safe_evalDepth
  · exact (safe_evalBlock_of_ne hlabel hdepth).strengthen (fun _ hs => hs.2)

end Blocks

section Signatures

variable {crypto : ScriptCrypto} {checker : SignatureChecker} {sigversion : SigVersion} {flags : UInt32} {n : ℕ}
  {opcode : Opcode} {α : Type}

/-- `Safe` for the parts of the function that reach the checker. -/
abbrev SafeAudit (checker : SignatureChecker) (sigversion : SigVersion) (pre : EvalState → Prop) (x : Audit α)
    (post : α → EvalState → Prop) : Prop :=
  Triple (fun m => pre m.state) x (fun a m => post a m.state)
    (fun e m => AllowedStop checker sigversion e ∧ ElementsBounded m.state)

lemma safe_callCheckSig {vchSig vchPubKey : Bytes} {scriptCode : CScript} : SafeAudit checker sigversion (Room n)
    (callCheckSig checker sigversion vchSig vchPubKey scriptCode) (fun _ => Room n) := by
  have hcharge : SafeAudit checker sigversion (Room n) charge (fun _ => Room n) := fun _ hm => hm
  apply hcharge.bind
  intro _ m hm
  cases hcheck : checker.checkSig vchSig vchPubKey scriptCode sigversion with
  | some fSuccess => exact hm
  | none => exact ⟨.checker hcheck, hm.bounded⟩

lemma safe_checkEncodings {vchSig vchPubKey : Bytes} : Safe checker sigversion (Room n)
    (checkEncodings crypto flags sigversion vchSig vchPubKey) (fun _ => Room n) := by
  apply safe_ofReturned.bind
  intro _
  exact safe_ofReturned

lemma safe_get : Safe checker sigversion (Room n) get (fun _ => Room n) := fun _ hs => hs

lemma safe_checkSigArgs :
    Safe checker sigversion (Room 0) (checkSigArgs crypto flags sigversion) (fun _ => Room 2) := by
  apply safe_needStack.bind
  intro _
  refine safe_stacktop_bind two_pos (le_refl 2) fun vchSig _ => ?_
  refine safe_stacktop_bind one_pos (le_succ 1) fun vchPubKey _ => ?_
  apply safe_get.bind
  intro s
  apply safe_checkEncodings.bind
  intro _
  exact pure (fun _ hs => hs)

lemma safe_checkSigResult {vchSig : Bytes} {fSuccess : Bool} :
    Safe checker sigversion (Room 2) (checkSigResult flags opcode vchSig fSuccess) (fun _ => Room 0) := by
  apply safe_scriptErrorIf.bind
  intro _
  apply safe_popstack.bind
  intro _
  apply safe_popstack.bind
  intro _
  apply (safe_pushBack (length_vchBool_le fSuccess)).bind
  intro _
  exact safe_verifyResult

lemma safe_evalCheckSig : SafeAudit checker sigversion (Room 0)
    (evalCheckSig crypto flags checker sigversion opcode) (fun _ => Room 0) := by
  apply safe_checkSigArgs.metered.bind
  intro args
  apply safe_callCheckSig.bind
  intro fSuccess
  exact safe_checkSigResult.metered

lemma safe_addOpCount {k : ℕ} : Safe checker sigversion (Room n) (addOpCount k) (fun _ => Room n) :=
  modify (fun _ hs => ⟨⟨hs.bounded.stack, hs.bounded.altstack⟩, hs.le⟩)

lemma safe_checkOpCount : Safe checker sigversion (Room n) checkOpCount (fun _ => Room n) :=
  (safe_test fun _ hs => hs.bounded).weaken (fun _ _ h => h.2)

lemma safe_readKeysCount : Safe checker sigversion (Room 0) (readKeysCount flags) (fun _ => Room 1) := by
  apply safe_needStack.bind
  intro _
  refine safe_readDefaultNum_bind one_pos (le_refl 1) fun bn _ => ?_
  apply safe_scriptErrorIf.bind
  intro _
  apply safe_addOpCount.bind
  intro _
  apply safe_checkOpCount.bind
  intro _
  exact pure (fun _ hs => hs)

lemma safe_readSigsCount {nKeysCount : ℕ} : Safe checker sigversion (Room 1) (readSigsCount flags nKeysCount)
    (fun nSigsCount => Room (3 + nKeysCount + nSigsCount)) := by
  apply safe_needStack.bind
  intro _
  refine safe_readDefaultNum_bind (by omega) (le_refl _) fun bn _ => ?_
  apply safe_scriptErrorIf.bind
  intro _
  apply safe_needStack.bind
  intro _
  exact pure (fun _ hs => hs)

lemma safe_multisigArgs : Safe checker sigversion (Room 0) (multisigArgs flags sigversion)
    (fun args => Room (3 + args.nKeysCount + args.nSigsCount)) := by
  apply safe_readKeysCount.bind
  intro nKeysCount
  apply safe_readSigsCount.bind
  intro nSigsCount
  have his : ∀ i ∈ (List.range nSigsCount).map (3 + nKeysCount + ·), 0 < i ∧ i ≤ 3 + nKeysCount + nSigsCount := by
    intro i hi
    obtain ⟨k, hk, rfl⟩ := mem_map.mp hi
    have hlt := mem_range.mp hk
    omega
  have htops : Safe checker sigversion (Room (3 + nKeysCount + nSigsCount)) _ _ := safe_stacktops _ his
  rw [mapM_map] at htops
  apply htops.bind
  intro vchSigs
  apply Triple.assume
  intro _
  apply safe_get.bind
  intro s
  exact pure (fun _ hs => hs)

lemma safe_multisigLoop {scriptCode : CScript} {nKeysCount ikey nSigsCount isig : ℕ} (hikey : 0 < ikey)
    (hkeys : ikey + nKeysCount ≤ n + 1) (hisig : 0 < isig) (hsigs : isig + nSigsCount ≤ n + 1) :
    SafeAudit checker sigversion (Room n)
      (multisigLoop crypto flags checker sigversion scriptCode nKeysCount ikey nSigsCount isig) (fun _ => Room n) := by
  induction nKeysCount generalizing ikey nSigsCount isig with
  | zero => exact pure (fun _ hs => hs)
  | succ nKeysCount ih =>
    apply Triple.ite
    · intro _
      exact pure (fun _ hs => hs)
    · intro hleft
      apply (safe_stacktop hisig (show isig ≤ n by omega)).metered.bind
      intro vchSig
      apply Triple.assume
      intro _
      apply (safe_stacktop hikey (show ikey ≤ n by omega)).metered.bind
      intro vchPubKey
      apply Triple.assume
      intro _
      apply safe_checkEncodings.metered.bind
      intro _
      apply safe_callCheckSig.bind
      intro fOk
      apply Triple.ite
      · intro _
        exact pure (fun _ hs => hs)
      · intro _
        refine ih (succ_pos ikey) (by omega) ?_ ?_
        · split_ifs
          · exact succ_pos isig
          · exact hisig
        · split_ifs
          · omega
          · exact hsigs

lemma safe_cleanUpStack {fSuccess : Bool} {i ikey2 : ℕ} : Safe checker sigversion (Room (n + i))
    (cleanUpStack flags fSuccess i ikey2) (fun _ => Room n) := by
  induction i generalizing ikey2 with
  | zero => exact pure (fun _ hs => hs)
  | succ i ih =>
    refine safe_stacktop_bind one_pos (by omega) fun vch _ => ?_
    apply safe_scriptErrorIf.bind
    intro _
    apply safe_popstack.bind
    intro _
    exact ih

lemma safe_multisigResult {nKeysCount nSigsCount : ℕ} {fSuccess : Bool} :
    Safe checker sigversion (Room (3 + nKeysCount + nSigsCount))
      (multisigResult flags opcode nKeysCount nSigsCount fSuccess) (fun _ => Room 0) := by
  have hroom : 3 + nKeysCount + nSigsCount = 1 + (2 + nKeysCount + nSigsCount) := by omega
  rw [hroom]
  apply safe_cleanUpStack.bind
  intro _
  apply safe_needStack.bind
  intro _
  refine safe_stacktop_bind one_pos (le_refl 1) fun vch _ => ?_
  apply safe_scriptErrorIf.bind
  intro _
  apply safe_popstack.bind
  intro _
  apply (safe_pushBack (length_vchBool_le fSuccess)).bind
  intro _
  exact safe_verifyResult

lemma safe_evalCheckMultisig : SafeAudit checker sigversion (Room 0)
    (evalCheckMultisig crypto flags checker sigversion opcode) (fun _ => Room 0) := by
  apply safe_multisigArgs.metered.bind
  intro args
  apply (safe_multisigLoop two_pos (by omega) (by omega) (by omega)).bind
  intro fSuccess
  exact safe_multisigResult.metered

end Signatures

section Loop

variable {crypto : ScriptCrypto} {checker : SignatureChecker} {sigversion : SigVersion} {flags : UInt32}

/-- The bounds on elements and on both stacks together. -/
structure WithinLimits (s : EvalState) : Prop where
  bounded : ElementsBounded s
  size : s.stack.length + s.altstack.length ≤ MAX_STACK_SIZE

lemma WithinLimits.room {s : EvalState} (h : WithinLimits s) : s.stack.length ≤ MAX_STACK_SIZE ∧ Room 0 s :=
  ⟨(le_add_right _ _).trans h.size, h.bounded, zero_le _⟩

lemma safe_evalSwitch {fExec : Bool} {r : CScript.GetOpResult} : SafeAudit checker sigversion WithinLimits
    (evalSwitch crypto flags checker sigversion fExec r) (fun _ => Room 0) := by
  unfold evalSwitch
  cases hlabel : switchLabel r.opcodeRet with
  | none => exact (safe_throw fun _ hs => hs.bounded).metered
  | some label =>
    cases label with
    | plain block => exact ((safe_evalBlock hlabel).strengthen (fun _ hs => hs.room)).metered
    | checkSig => exact safe_evalCheckSig.strengthen (fun _ hs => hs.room.2)
    | checkMultisig => exact safe_evalCheckMultisig.strengthen (fun _ hs => hs.room.2)

lemma safe_countOp {opcode : Opcode} :
    Safe checker sigversion WithinLimits (countOp opcode) (fun _ => WithinLimits) := by
  apply Triple.ite
  · intro _
    have hadd : Safe checker sigversion WithinLimits (addOpCount 1) (fun _ => WithinLimits) :=
      modify (fun _ hs => ⟨⟨hs.bounded.stack, hs.bounded.altstack⟩, hs.size⟩)
    apply hadd.bind
    intro _
    exact (safe_test fun _ hs => hs.bounded).weaken (fun _ _ h => h.2)
  · intro _
    exact pure (fun _ hs => hs)

lemma safe_readInstruction {r : CScript.GetOpResult} : Safe checker sigversion WithinLimits (readInstruction r)
    (fun _ s => r.vchRet.length ≤ MAX_SCRIPT_ELEMENT_SIZE ∧ WithinLimits s) := by
  have hget : Safe checker sigversion WithinLimits get (fun _ => WithinLimits) := fun _ hs => hs
  apply hget.bind
  intro s
  apply (safe_test fun _ hs => hs.bounded).bind
  intro _
  apply Triple.assume
  intro hsize
  apply safe_countOp.bind
  intro _
  apply (safe_test fun _ hs => hs.bounded).bind
  intro _
  exact pure (fun _ hs => ⟨Nat.le_of_not_lt hsize, hs.2⟩)

lemma safe_evalPush {r : CScript.GetOpResult} (h : r.vchRet.length ≤ MAX_SCRIPT_ELEMENT_SIZE) :
    Safe checker sigversion (Room 0) (evalPush flags r) (fun _ => Room 0) := by
  apply safe_scriptErrorIf.bind
  intro _
  exact (safe_pushBack h).toRoom (fun _ _ hs => hs)

lemma safe_execute {fExec : Bool} {r : CScript.GetOpResult} (h : r.vchRet.length ≤ MAX_SCRIPT_ELEMENT_SIZE) :
    SafeAudit checker sigversion WithinLimits (execute crypto flags checker sigversion fExec r) (fun _ => Room 0) := by
  apply Triple.ite
  · intro _
    exact ((safe_evalPush h).strengthen (fun _ hs => hs.room.2)).metered
  · intro _
    apply Triple.ite
    · intro _
      exact safe_evalSwitch
    · intro _
      exact pure (fun _ hs => hs.room.2)

lemma safe_checkStackSize : Safe checker sigversion (Room 0) checkStackSize (fun _ => WithinLimits) :=
  (safe_test fun _ hs => hs.bounded).weaken (fun _ _ h => ⟨h.2.bounded, Nat.le_of_not_lt h.1⟩)

lemma safe_evalOp {r : CScript.GetOpResult} : SafeAudit checker sigversion WithinLimits
    (evalOp crypto flags checker sigversion r) (fun _ => WithinLimits) := by
  apply safe_readInstruction.metered.bind
  intro fExec
  apply Triple.assume
  intro hsize
  apply (safe_execute hsize).bind
  intro _
  exact safe_checkStackSize.metered

lemma safe_forM_evalOp {ops : List CScript.GetOpResult} : SafeAudit checker sigversion WithinLimits
    (ops.forM (evalOp crypto flags checker sigversion)) (fun _ => WithinLimits) :=
  forM fun _ _ => safe_evalOp

lemma safe_checkBalanced : Safe checker sigversion WithinLimits
    (fun s => scriptErrorIf (s.vfExec ≠ []) SCRIPT_ERR_UNBALANCED_CONDITIONAL s)
    (fun _ s => s.vfExec = [] ∧ WithinLimits s) :=
  (safe_test fun _ hs => hs.bounded).weaken (fun _ _ h => ⟨not_not.mp h.1, h.2⟩)

lemma safe_evalOps {script : CScript} : SafeAudit checker sigversion WithinLimits
    (evalOps crypto flags checker sigversion script) (fun _ s => s.vfExec = [] ∧ WithinLimits s) := by
  apply (safe_test fun _ hs => hs.bounded).metered.bind
  intro _
  apply Triple.assume
  intro _
  apply safe_forM_evalOp.bind
  intro _
  apply (safe_test fun _ hs => hs.bounded).metered.bind
  intro _
  apply Triple.assume
  intro _
  exact safe_checkBalanced.metered

/-- `EvalScript` on any script, from a stack within the limits. Where it succeeds the conditional stack is empty,
and after each instruction the stacks held at most 1000 elements. Where it stops early, no access to the stack
was out of range and no assertion of its own has failed: it returned an error, a number was not encoded as
`CScriptNum` demands, or the checker did not answer. -/
theorem evalOps_within_limits (crypto : ScriptCrypto) (flags : UInt32) (checker : SignatureChecker)
    (sigversion : SigVersion) (script : CScript) {stack : List Bytes} (hcount : stack.length ≤ MAX_STACK_SIZE)
    (hsize : ∀ vch ∈ stack, vch.length ≤ MAX_SCRIPT_ELEMENT_SIZE) (n : ℕ) :
    match evalOps crypto flags checker sigversion script ⟨⟨stack, [], [], 0, script⟩, n⟩ with
    | .ok _ m => ElementsBounded m.state ∧ m.state.vfExec = [] ∧
        ∀ front behind, (CScript.scan script).ops = front ++ behind →
          ∃ t, front.forM (evalOp crypto flags checker sigversion) ⟨⟨stack, [], [], 0, script⟩, n⟩ = .ok () t ∧
            ElementsBounded t.state ∧ t.state.stack.length + t.state.altstack.length ≤ MAX_STACK_SIZE
    | .error e m => AllowedStop checker sigversion e ∧ ElementsBounded m.state := by
  have hstart : WithinLimits ⟨stack, [], [], 0, script⟩ :=
    ⟨⟨hsize, fun vch hvch => absurd hvch not_mem_nil⟩, hcount⟩
  have hops : SafeAudit checker sigversion WithinLimits (evalOps crypto flags checker sigversion script)
      (fun _ s => s.vfExec = [] ∧ WithinLimits s) := safe_evalOps
  have hsafe := hops ⟨⟨stack, [], [], 0, script⟩, n⟩ hstart
  cases hrun : evalOps crypto flags checker sigversion script ⟨⟨stack, [], [], 0, script⟩, n⟩ with
  | error e m =>
    rw [hrun] at hsafe
    exact hsafe
  | ok u m =>
    rw [hrun] at hsafe
    refine ⟨hsafe.2.bounded, hsafe.1, fun front behind hscan => ?_⟩
    obtain ⟨_, ⟨s, k⟩, htest, hrun⟩ := run_bind_eq_ok_iff.mp hrun
    obtain ⟨htest, hspent⟩ := metered_eq_ok_iff.mp htest
    obtain rfl : n = k := hspent.symm
    obtain ⟨-, hstate⟩ := scriptErrorIf_eq_ok_iff.mp htest
    obtain rfl : (⟨stack, [], [], 0, script⟩ : EvalState) = s := hstate
    obtain ⟨_, t', hloop, -⟩ := run_bind_eq_ok_iff.mp hrun
    rw [hscan] at hloop
    obtain ⟨t, hfront, -⟩ := run_forM_append hloop
    have hlimits : SafeAudit checker sigversion WithinLimits
        (front.forM (evalOp crypto flags checker sigversion)) (fun _ => WithinLimits) := safe_forM_evalOp
    have ht := hlimits ⟨⟨stack, [], [], 0, script⟩, n⟩ hstart
    rw [hfront] at ht
    exact ⟨t, hfront, ht.bounded, ht.size⟩

/-- A script that copies the top of the stack and adds the copies. -/
theorem evalOps_within_limits_doubling :
    match evalOps nullCrypto 0 equalBytesChecker .SIGVERSION_BASE [OP_DUP, OP_ADD]
      ⟨⟨[[3]], [], [], 0, [OP_DUP, OP_ADD]⟩, 0⟩ with
    | .ok _ m => ElementsBounded m.state ∧ m.state.vfExec = [] ∧
        ∀ front behind, (CScript.scan [OP_DUP, OP_ADD]).ops = front ++ behind →
          ∃ t, front.forM (evalOp nullCrypto 0 equalBytesChecker .SIGVERSION_BASE)
              ⟨⟨[[3]], [], [], 0, [OP_DUP, OP_ADD]⟩, 0⟩ = .ok () t ∧
            ElementsBounded t.state ∧ t.state.stack.length + t.state.altstack.length ≤ MAX_STACK_SIZE
    | .error e m => AllowedStop equalBytesChecker .SIGVERSION_BASE e ∧ ElementsBounded m.state :=
  evalOps_within_limits nullCrypto 0 equalBytesChecker .SIGVERSION_BASE [OP_DUP, OP_ADD]
    (show [[3]].length ≤ MAX_STACK_SIZE by decide) (by decide) 0

end Loop

end MutableBitcoin
