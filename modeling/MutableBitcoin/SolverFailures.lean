import MutableBitcoin.CombineSignatures
import MutableBitcoin.VerifyScript

/-!
# Scripts that are not classified

`Solver` fails in three ways. Behind the templates it says that the script is not standard.
-/

namespace MutableBitcoin
open Lib Opcode TxnOutType Bool List

/-- A witness program without a type. -/
def IsUnknownWitnessProgram (script : CScript) : Prop :=
  ∃ version program, CScript.isWitnessProgram script = some (version, program) ∧
    ¬(version = 0 ∧ (program.length = 20 ∨ program.length = 32))

/-- A multisignature script whose numbers do not fit. -/
def HasBadMultisigCounts (script : CScript) : Prop :=
  ∃ m ≤ 16, ∃ n ≤ 16, ∃ pushes keys, List.Forall₂ PushesKey pushes keys ∧
    script = [smallInteger m] ++ pushes.flatten ++ [smallInteger n, OP_CHECKMULTISIG] ∧
    ¬(1 ≤ m ∧ m ≤ n ∧ keys.length = n)

/-- The ways in which `Solver` ends. -/
inductive SolverExit (script : CScript) (typeRet : TxnOutType) : SolverResult → Prop where
  | standard {type : TxnOutType} {sols : List Bytes} (h : StandardScript script type sols) :
    SolverExit script typeRet ⟨true, type, sols⟩
  | unknownProgram (h : IsUnknownWitnessProgram script) : SolverExit script typeRet ⟨false, typeRet, []⟩
  | badCounts {sols : List Bytes} (h : HasBadMultisigCounts script) (hlength : 1 < sols.length) :
    SolverExit script typeRet ⟨false, TX_MULTISIG, sols⟩
  | noTemplate : SolverExit script typeRet ⟨false, TX_NONSTANDARD, []⟩

lemma solver_exit (script : CScript) (typeRet : TxnOutType) : SolverExit script typeRet (solver script typeRet) := by
  cases hsolver : solver script typeRet with
  | mk ok type sols =>
    cases ok with
    | true => exact .standard (standard_of_solver hsolver)
    | false =>
      unfold solver at hsolver
      by_cases hp2sh : CScript.isPayToScriptHash script = true
      · rw [if_pos hp2sh] at hsolver
        cases hsolver
      rw [if_neg hp2sh] at hsolver
      cases hwitness : CScript.isWitnessProgram script with
      | some found =>
        obtain ⟨version, program⟩ := found
        rw [hwitness] at hsolver
        dsimp only at hsolver
        split_ifs at hsolver with hkeyhash hscripthash
        · cases hsolver
        · cases hsolver
        · cases hsolver
          exact .unknownProgram ⟨version, program, hwitness, by tauto⟩
      | none =>
        rw [hwitness] at hsolver
        dsimp only at hsolver
        by_cases hnull : isNullData script = true
        · rw [if_pos hnull] at hsolver
          cases hsolver
        · rw [if_neg hnull, scanTemplates_eq] at hsolver
          split at hsolver
          · cases hsolver
          · split at hsolver
            · cases hsolver
            · split at hsolver
              · next sols' hmultisig =>
                obtain ⟨m, hm, pushes, keys, hpushes, n, hn, rfl, rfl⟩ := compareMultisig_iff.mp hmultisig
                split_ifs at hsolver with hcounts
                · rw [badMultisigCounts_iff hm hn] at hcounts
                  cases hsolver
                  exact .badCounts ⟨m, hm, n, hn, pushes, keys, hpushes, rfl, hcounts⟩ (by simp)
                · cases hsolver
              · cases hsolver
                exact .noTemplate

lemma solver_of_unknownProgram {script : CScript} (h : IsUnknownWitnessProgram script) (typeRet : TxnOutType) :
    solver script typeRet = ⟨false, typeRet, []⟩ := by
  obtain ⟨version, program, hwitness, hunknown⟩ := h
  have hp2sh : CScript.isPayToScriptHash script = false := by
    rw [eq_false_iff]
    intro hp2sh
    rw [isWitnessProgram_of_isPayToScriptHash hp2sh] at hwitness
    cases hwitness
  unfold solver
  rw [hp2sh, hwitness]
  dsimp only
  rw [if_neg Bool.false_ne_true, if_neg (by tauto), if_neg (by tauto)]

lemma solver_of_badCounts {script : CScript} (h : HasBadMultisigCounts script) (typeRet : TxnOutType) :
    (solver script typeRet).ok = false ∧ (solver script typeRet).typeRet = TX_MULTISIG := by
  obtain ⟨m, hm, n, hn, pushes, keys, hpushes, rfl, hcounts⟩ := h
  rw [solver_multisigForm hm hn hpushes, if_pos ((badMultisigCounts_iff hm hn keys).mpr hcounts)]
  exact ⟨rfl, rfl⟩

lemma solver_reports_iff (script : CScript) (typeRet : TxnOutType) :
    ((solver script typeRet).ok = false →
      (solver script typeRet).typeRet = TX_NONSTANDARD ∧ (solver script typeRet).vSolutionsRet = []) ↔
    ¬HasBadMultisigCounts script ∧ (IsUnknownWitnessProgram script → typeRet = TX_NONSTANDARD) := by
  constructor
  · intro h
    refine ⟨fun hcounts => ?_, fun hunknown => ?_⟩
    · obtain ⟨hok, htype⟩ := solver_of_badCounts hcounts typeRet
      exact absurd (htype.symm.trans (h hok).1) (by decide)
    · rw [solver_of_unknownProgram hunknown] at h
      exact (h rfl).1
  · rintro ⟨hcounts, hunknown⟩ hok
    have hexit := solver_exit script typeRet
    cases hsolver : solver script typeRet with
    | mk ok type sols =>
      rw [hsolver] at hexit hok
      cases hexit with
      | standard h => cases hok
      | unknownProgram h => exact ⟨hunknown h, rfl⟩
      | badCounts h _ => exact absurd h hcounts
      | noTemplate => exact ⟨rfl, rfl⟩

/-! ### The scripts that are combined -/

/-- The script whose stacks are combined in the end. -/
inductive Combines : CScript → Stacks → Stacks → CScript → Prop where
  | here {script : CScript} {s₁ s₂ : Stacks} : Combines script s₁ s₂ script
  | redeem {script script' : CScript} {s₁ s₂ : Stacks} {sols : List Bytes}
    (hform : StandardScript script TX_SCRIPTHASH sols) (h₁ : isPlaceholder s₁.script.getLast? = false)
    (h₂ : isPlaceholder s₂.script.getLast? = false)
    (hrest : Combines (s₁.script.getLastD []) ⟨s₁.script.dropLast, s₁.witness⟩ ⟨s₂.script.dropLast, s₂.witness⟩ script') :
    Combines script s₁ s₂ script'
  | witness {script script' : CScript} {s₁ s₂ : Stacks} {sols : List Bytes}
    (hform : StandardScript script TX_WITNESS_V0_SCRIPTHASH sols) (h₁ : isPlaceholder s₁.witness.getLast? = false)
    (h₂ : isPlaceholder s₂.witness.getLast? = false)
    (hrest : Combines (s₁.witness.getLastD []) ⟨s₁.witness.dropLast, []⟩ ⟨s₂.witness.dropLast, []⟩ script') :
    Combines script s₁ s₂ script'

section Combine

variable {checker : SignatureChecker} {sigversion : SigVersion}

lemma matchSig_ne_size {scriptPubKey : CScript} {sig : Bytes} {pubkeys : List Bytes} {sigs : SigMap} :
    matchSig checker sigversion scriptPubKey sig pubkeys sigs ≠ .error .vSolutionsSize := by
  induction pubkeys with
  | nil =>
    intro hfails
    cases hfails
  | cons pubkey pubkeys ih =>
    rw [matchSig]
    split_ifs
    · exact ih
    · split
      · intro hfails
        cases hfails
      · exact ih
      · intro hfails
        cases hfails

lemma foldlM_matchSig_ne_size {scriptPubKey : CScript} {allsigs pubkeys : List Bytes} {sigs : SigMap} :
    allsigs.foldlM (fun sigs sig => matchSig checker sigversion scriptPubKey sig pubkeys sigs) sigs ≠
      .error .vSolutionsSize := by
  induction allsigs generalizing sigs with
  | nil =>
    intro hfails
    cases hfails
  | cons sig allsigs ih =>
    rw [foldlM_cons]
    cases hmatch : matchSig checker sigversion scriptPubKey sig pubkeys sigs with
    | error e =>
      intro h
      cases h
      exact matchSig_ne_size hmatch
    | ok sigs' => exact ih

lemma combineMultisig_ne_size {scriptPubKey : CScript} {vSolutions sigs₁ sigs₂ : List Bytes}
    (h : 1 < vSolutions.length) :
    combineMultisig checker sigversion scriptPubKey vSolutions sigs₁ sigs₂ ≠ .error .vSolutionsSize := by
  rw [combineMultisig, if_neg (Nat.not_le.mpr h)]
  intro hbind
  dsimp only at hbind
  cases hfold : (allSigs sigs₁ sigs₂).foldlM (fun sigs sig => matchSig checker sigversion scriptPubKey sig
      ((vSolutions.drop 1).take (vSolutions.length - 2)) sigs) ∅ with
  | error e =>
    rw [hfold] at hbind
    cases hbind
    exact foldlM_matchSig_ne_size hfold
  | ok sigs =>
    rw [hfold] at hbind
    cases hbind

lemma combineStacks_multisig {unwritten : ℕ → TxnOutType} {depth : ℕ} {script : CScript} {sols : List Bytes}
    {s₁ s₂ : Stacks} (h : 1 < sols.length) :
    combineStacks checker unwritten depth script TX_MULTISIG sols s₁ s₂ sigversion ≠ .error .vSolutionsSize := by
  rw [combineStacks]
  intro hbind
  obtain hcombine | ⟨result, -, hreturn⟩ := bind_eq_error_iff.mp hbind
  · exact combineMultisig_ne_size h hcombine
  · cases hreturn

lemma combineStacks_ne_size (unwritten : ℕ → TxnOutType) {depth : ℕ} {script : CScript} {s₁ s₂ : Stacks}
    {sigversion : SigVersion} (h : ∀ script', Combines script s₁ s₂ script' → ¬IsUnknownWitnessProgram script') :
    combineStacks checker unwritten depth script (solver script (unwritten depth)).typeRet
      (solver script (unwritten depth)).vSolutionsRet s₁ s₂ sigversion ≠ .error .vSolutionsSize := by
  induction hn : s₁.script.length + s₁.witness.length using Nat.strong_induction_on
    generalizing depth script s₁ s₂ sigversion with
  | _ n ih =>
    have hexit := solver_exit script (unwritten depth)
    generalize solver script (unwritten depth) = solved at hexit ⊢
    cases hexit with
    | noTemplate =>
      rw [combineStacks]
      intro hfails
      cases hfails
    | unknownProgram hunknown => exact absurd hunknown (h script .here)
    | badCounts _ hlength => exact combineStacks_multisig hlength
    | standard hform =>
      cases hform with
      | pubkey _ =>
        rw [combineStacks]
        intro hfails
        cases hfails
      | pubkeyhash _ _ =>
        rw [combineStacks]
        intro hfails
        cases hfails
      | multisig _ _ _ _ => exact combineStacks_multisig (by simp)
      | nullData _ =>
        rw [combineStacks]
        intro hfails
        cases hfails
      | witnessKeyhash _ =>
        rw [combineStacks]
        intro hfails
        cases hfails
      | scripthash hlength =>
        rw [combineStacks]
        by_cases h₁ : isPlaceholder s₁.script.getLast? = true
        · rw [dif_pos h₁]
          intro hfails
          cases hfails
        by_cases h₂ : isPlaceholder s₂.script.getLast? = true
        · rw [dif_neg h₁, if_pos h₂]
          intro hfails
          cases hfails
        rw [dif_neg h₁, if_neg h₂]
        have hpos := length_pos_of_not_isPlaceholder h₁
        have hrec : combineStacks checker unwritten (depth + 1) (s₁.script.getLastD [])
            (solver (s₁.script.getLastD []) (unwritten (depth + 1))).typeRet
            (solver (s₁.script.getLastD []) (unwritten (depth + 1))).vSolutionsRet ⟨s₁.script.dropLast, s₁.witness⟩
            ⟨s₂.script.dropLast, s₂.witness⟩ sigversion ≠ .error .vSolutionsSize := by
          refine ih _ ?_ (fun script' hrest => h script' ?_) rfl
          · simp only [length_dropLast]
            omega
          · exact .redeem (.scripthash hlength) (eq_false_iff.mpr h₁) (eq_false_iff.mpr h₂) hrest
        intro hbind
        obtain hcombine | ⟨result, -, hreturn⟩ := bind_eq_error_iff.mp hbind
        · exact hrec hcombine
        · cases hreturn
      | witnessScripthash hlength =>
        rw [combineStacks]
        by_cases h₁ : isPlaceholder s₁.witness.getLast? = true
        · rw [dif_pos h₁]
          intro hfails
          cases hfails
        by_cases h₂ : isPlaceholder s₂.witness.getLast? = true
        · rw [dif_neg h₁, if_pos h₂]
          intro hfails
          cases hfails
        rw [dif_neg h₁, if_neg h₂]
        have hpos := length_pos_of_not_isPlaceholder h₁
        have hrec : combineStacks checker unwritten (depth + 1) (s₁.witness.getLastD [])
            (solver (s₁.witness.getLastD []) (unwritten (depth + 1))).typeRet
            (solver (s₁.witness.getLastD []) (unwritten (depth + 1))).vSolutionsRet ⟨s₁.witness.dropLast, []⟩
            ⟨s₂.witness.dropLast, []⟩ .SIGVERSION_WITNESS_V0 ≠ .error .vSolutionsSize := by
          refine ih _ ?_ (fun script' hrest => h script' ?_) rfl
          · simp only [length_dropLast, length_nil]
            omega
          · exact .witness (.witnessScripthash hlength) (eq_false_iff.mpr h₁) (eq_false_iff.mpr h₂) hrest
        intro hbind
        obtain hcombine | ⟨result, -, hreturn⟩ := bind_eq_error_iff.mp hbind
        · exact hrec hcombine
        · cases hreturn

lemma combineStacks_eq_size {depth : ℕ} {script script' : CScript} {s₁ s₂ : Stacks} {sigversion : SigVersion}
    (h : Combines script s₁ s₂ script') (hunknown : IsUnknownWitnessProgram script') :
    combineStacks checker (fun _ => TX_MULTISIG) depth script (solver script TX_MULTISIG).typeRet
      (solver script TX_MULTISIG).vSolutionsRet s₁ s₂ sigversion = .error .vSolutionsSize := by
  induction h generalizing depth sigversion with
  | here =>
    rw [solver_of_unknownProgram hunknown, combineStacks]
    rfl
  | redeem hform h₁ h₂ _ ih =>
    rw [solver_of_standard hform, combineStacks, dif_neg (eq_false_iff.mp h₁), if_neg (eq_false_iff.mp h₂)]
    exact bind_eq_error_iff.mpr (Or.inl (ih hunknown))
  | witness hform h₁ h₂ _ ih =>
    rw [solver_of_standard hform, combineStacks, dif_neg (eq_false_iff.mp h₁), if_neg (eq_false_iff.mp h₂)]
    exact bind_eq_error_iff.mpr (Or.inl (ih hunknown))

end Combine

/-- `Solver` reports a failure as one except for wrong counts, and for an unknown witness program
with another type before the call. `CombineSignatures` keeps its assertion, whatever the variables
hold that `Solver` does not write, except where it comes to an unknown witness program. -/
theorem failedClassification_iff (script : CScript) (typeRet : TxnOutType) (crypto : ScriptCrypto)
    (checker : SignatureChecker) (scriptPubKey : CScript) (data₁ data₂ : SignatureData) :
    (((solver script typeRet).ok = false →
        (solver script typeRet).typeRet = TX_NONSTANDARD ∧ (solver script typeRet).vSolutionsRet = []) ↔
      ¬HasBadMultisigCounts script ∧ (IsUnknownWitnessProgram script → typeRet = TX_NONSTANDARD)) ∧
    ((∀ unwritten, combineSignatures crypto checker unwritten scriptPubKey data₁ data₂ ≠ .error .vSolutionsSize) ↔
      ∀ script, Combines scriptPubKey (.ofData crypto data₁) (.ofData crypto data₂) script →
        ¬IsUnknownWitnessProgram script) := by
  refine ⟨solver_reports_iff script typeRet, ?_, ?_⟩
  · intro hsafe script hcombines hunknown
    refine hsafe (fun _ => TX_MULTISIG) ?_
    rw [combineSignatures, combineStacks_eq_size hcombines hunknown]
    rfl
  · intro h unwritten hfails
    have hstacks : combineStacks checker unwritten 0 scriptPubKey (solver scriptPubKey (unwritten 0)).typeRet
        (solver scriptPubKey (unwritten 0)).vSolutionsRet (.ofData crypto data₁) (.ofData crypto data₂)
        .SIGVERSION_BASE ≠ .error .vSolutionsSize := combineStacks_ne_size unwritten h
    rw [combineSignatures] at hfails
    cases hcombine : combineStacks checker unwritten 0 scriptPubKey (solver scriptPubKey (unwritten 0)).typeRet
        (solver scriptPubKey (unwritten 0)).vSolutionsRet (.ofData crypto data₁) (.ofData crypto data₂)
        .SIGVERSION_BASE with
    | error e =>
      rw [hcombine] at hfails
      cases hfails
      exact hstacks hcombine
    | ok result =>
      rw [hcombine] at hfails
      cases hfails

/-- A witness program of version 1: `Solver` fails and leaves the type, and the assertion fails. -/
theorem failedClassification_version_one :
    (¬∀ script typeRet, (solver script typeRet).ok = false →
        (solver script typeRet).typeRet = TX_NONSTANDARD ∧ (solver script typeRet).vSolutionsRet = []) ∧
      combineSignatures nullCrypto equalBytesChecker (fun _ => TX_MULTISIG) [OP_1, 2, 7, 7] ⟨[], []⟩ ⟨[], []⟩ =
        .error .vSolutionsSize := by
  have hsolver : solver [OP_1, 2, 7, 7] TX_MULTISIG = ⟨false, TX_MULTISIG, []⟩ := by decide +kernel
  constructor
  · intro h
    have hclean := (h [OP_1, 2, 7, 7] TX_MULTISIG (by rw [hsolver])).1
    rw [hsolver] at hclean
    cases hclean
  · rw [combineSignatures, hsolver, combineStacks]
    rfl

end MutableBitcoin
