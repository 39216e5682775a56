import Mathlib.Algebra.BigOperators.Fin
import Mathlib.Algebra.Order.BigOperators.Group.Finset
import Mathlib.Tactic.Abel

/-!
# Parallel script checks

`CCheckQueue` of `checkqueue.h`. A master adds checks and then joins the workers until all are done.
-/

namespace MutableBitcoin
open Finset Function List Bool

/-- The members of the queue that its mutex guards. -/
structure CCheckQueue (T : Type) where
  /-- The last element first. -/
  queue : List T
  nIdle : ℕ
  nTotal : ℕ
  fAllOk : Bool
  nTodo : ℕ
  fQuit : Bool
  nBatchSize : ℕ

/-- Where a thread is in `Loop`. -/
inductive LoopState (T : Type) where
  | outside
  | starting
  | waiting
  | executing (vChecks : List T) (fOk : Bool) (nNow : ℕ)
  | returned (fRet : Bool)

namespace CCheckQueue

variable {T : Type}

def init (nBatchSizeIn : ℕ) : CCheckQueue T := ⟨[], 0, 0, true, 0, false, nBatchSizeIn⟩

def cleanUp (q : CCheckQueue T) (fOk : Bool) (nNow : ℕ) : CCheckQueue T :=
  { q with fAllOk := q.fAllOk && fOk, nTodo := q.nTodo - nNow }

def batchSize (q : CCheckQueue T) : ℕ :=
  max 1 (min q.nBatchSize (q.queue.length / (q.nTotal + q.nIdle + 1)))

/-- A worker looks at the queue: a batch, a wait or the return. -/
def takeBatch (fMaster : Bool) (q : CCheckQueue T) : CCheckQueue T × LoopState T :=
  if q.queue.isEmpty then
    if (fMaster || q.fQuit) && q.nTodo == 0 then
      ({ q with nTotal := q.nTotal - 1, fAllOk := if fMaster then true else q.fAllOk }, .returned q.fAllOk)
    else ({ q with nIdle := q.nIdle + 1 }, .waiting)
  else
    ({ q with queue := q.queue.drop q.batchSize },
      .executing (q.queue.take q.batchSize) q.fAllOk q.batchSize)

/-- A critical section of `Loop`, which a thread enters at its first run, when it wakes, or after its
batch. -/
def criticalSection (fMaster : Bool) (q : CCheckQueue T) : LoopState T → Option (CCheckQueue T × LoopState T)
  | .starting => some (takeBatch fMaster { q with nTotal := q.nTotal + 1 })
  | .waiting => some (takeBatch fMaster { q with nIdle := q.nIdle - 1 })
  | .executing [] fOk nNow => some (takeBatch fMaster (q.cleanUp fOk nNow))
  | _ => none

def add (q : CCheckQueue T) (vChecks : List T) : CCheckQueue T :=
  { q with queue := vChecks.reverse ++ q.queue, nTodo := q.nTodo + vChecks.length }

end CCheckQueue

namespace LoopState

variable {T : Type}

def unreported : LoopState T → ℕ
  | executing _ _ nNow => nNow
  | _ => 0

def pending : LoopState T → Multiset T
  | executing vChecks _ _ => vChecks
  | _ => 0

def Sized : LoopState T → Prop
  | executing vChecks _ nNow => vChecks.length ≤ nNow ∧ 1 ≤ nNow
  | _ => True

def failed : LoopState T → Bool
  | executing _ fOk _ => !fOk
  | _ => false

end LoopState

/-- The queue, the master (`none`) with its workers, and what has become of the checks of the session. -/
structure CheckSession (ι T : Type) where
  queue : CCheckQueue T
  threads : Option ι → LoopState T
  added : Multiset T
  evaluated : Multiset T
  skipped : Multiset T

namespace CheckSession

variable {ι T : Type} [DecidableEq ι]

def init (ι T : Type) (nBatchSizeIn : ℕ) : CheckSession ι T :=
  ⟨CCheckQueue.init nBatchSizeIn, fun i => if i.isNone then .outside else .starting, 0, 0, 0⟩

/-- A thread comes to a check of its batch: `if (fOk) fOk = check()`. -/
def execute (ok : T → Bool) (st : CheckSession ι T) (i : Option ι) (check : T) (rest : List T) (fOk : Bool)
    (nNow : ℕ) : CheckSession ι T :=
  { st with
    threads := update st.threads i (.executing rest (fOk && ok check) nNow)
    evaluated := if fOk then check ::ₘ st.evaluated else st.evaluated
    skipped := if fOk then st.skipped else check ::ₘ st.skipped }

/-- A step of one thread while the mutex is held. -/
inductive Step (ok : T → Bool) : CheckSession ι T → CheckSession ι T → Prop
  | add {st : CheckSession ι T} (vChecks : List T) (h : st.threads none = .outside) :
      Step ok st { st with queue := st.queue.add vChecks, added := st.added + vChecks }
  | wait {st : CheckSession ι T} (h : st.threads none = .outside) :
      Step ok st { st with threads := update st.threads none .starting }
  | criticalSection {st : CheckSession ι T} (i : Option ι) {queue : CCheckQueue T} {loopState : LoopState T}
      (h : CCheckQueue.criticalSection i.isNone st.queue (st.threads i) = some (queue, loopState)) :
      Step ok st { st with queue := queue, threads := update st.threads i loopState }
  | execute {st : CheckSession ι T} (i : Option ι) {check : T} {rest : List T} {fOk : Bool} {nNow : ℕ}
      (h : st.threads i = .executing (check :: rest) fOk nNow) :
      Step ok st (st.execute ok i check rest fOk nNow)
  | leave {st : CheckSession ι T} {fRet : Bool} (h : st.threads none = .returned fRet) :
      Step ok st ⟨st.queue, update st.threads none .outside, 0, 0, 0⟩

/-- The states of all interleavings. -/
inductive Reachable (ok : T → Bool) (nBatchSizeIn : ℕ) : CheckSession ι T → Prop
  | init : Reachable ok nBatchSizeIn (CheckSession.init ι T nBatchSizeIn)
  | step {st st' : CheckSession ι T} (h : Reachable ok nBatchSizeIn st) (hstep : Step ok st st') :
      Reachable ok nBatchSizeIn st'

end CheckSession

section Sections

variable {T : Type} {fMaster : Bool} {q q' : CCheckQueue T} {loopState loopState' : LoopState T}

lemma batchSize_pos (q : CCheckQueue T) : 1 ≤ q.batchSize := le_max_left _ _

lemma batchSize_le (h : q.queue ≠ []) : q.batchSize ≤ q.queue.length := by
  apply max_le (length_pos_iff.mpr h)
  exact (min_le_right _ _).trans (Nat.div_le_self _ _)

/-- How a critical section ends that found `checks` in the queue, with `fAllOk` the verdict after the
report. -/
inductive SectionEnd (fMaster fQuit : Bool) (checks : List T) (q' : CCheckQueue T) (fAllOk : Bool) :
    LoopState T → Prop
  | returned (hempty : checks = []) (hmay : (fMaster || fQuit) = true) (htodo : q'.nTodo = 0)
      (hqueue : q'.queue = []) (hall : q'.fAllOk = (fMaster || fAllOk)) :
      SectionEnd fMaster fQuit checks q' fAllOk (.returned fAllOk)
  | waiting (hempty : checks = []) (hqueue : q'.queue = []) (hall : q'.fAllOk = fAllOk) :
      SectionEnd fMaster fQuit checks q' fAllOk .waiting
  | batch {k : ℕ} (hpos : 1 ≤ k) (hle : k ≤ checks.length) (hqueue : q'.queue = checks.drop k)
      (hall : q'.fAllOk = fAllOk) : SectionEnd fMaster fQuit checks q' fAllOk (.executing (checks.take k) fAllOk k)

lemma takeBatch_end (fMaster : Bool) (q : CCheckQueue T) :
    (q.takeBatch fMaster).1.nTodo = q.nTodo ∧ (q.takeBatch fMaster).1.fQuit = q.fQuit ∧
      SectionEnd fMaster q.fQuit q.queue (q.takeBatch fMaster).1 q.fAllOk (q.takeBatch fMaster).2 := by
  unfold CCheckQueue.takeBatch
  by_cases hempty : q.queue = []
  · rw [if_pos (isEmpty_iff.mpr hempty)]
    by_cases hmay : ((fMaster || q.fQuit) && q.nTodo == 0) = true
    · rw [if_pos hmay]
      rw [and_eq_true, beq_iff_eq] at hmay
      refine ⟨rfl, rfl, .returned hempty hmay.1 hmay.2 hempty ?_⟩
      cases fMaster <;> rfl
    · rw [if_neg hmay]
      exact ⟨rfl, rfl, .waiting hempty hempty rfl⟩
  · rw [if_neg (fun h => hempty (isEmpty_iff.mp h))]
    exact ⟨rfl, rfl, .batch (batchSize_pos q) (batchSize_le hempty) rfl rfl⟩

lemma criticalSection_end
    (h : CCheckQueue.criticalSection fMaster q loopState = some (q', loopState')) :
    loopState.pending = 0 ∧ q'.nTodo = q.nTodo - loopState.unreported ∧ q'.fQuit = q.fQuit ∧
      SectionEnd fMaster q.fQuit q.queue q' (q.fAllOk && !loopState.failed) loopState' := by
  cases loopState with
  | outside => cases h
  | returned fRet => cases h
  | starting =>
    have hfailed : (LoopState.starting : LoopState T).failed = false := rfl
    have hend := takeBatch_end fMaster { q with nTotal := q.nTotal + 1 }
    rw [Option.some.inj h] at hend
    refine ⟨rfl, hend.1, hend.2.1, ?_⟩
    rw [hfailed, Bool.not_false, Bool.and_true]
    exact hend.2.2
  | waiting =>
    have hfailed : (LoopState.waiting : LoopState T).failed = false := rfl
    have hend := takeBatch_end fMaster { q with nIdle := q.nIdle - 1 }
    rw [Option.some.inj h] at hend
    refine ⟨rfl, hend.1, hend.2.1, ?_⟩
    rw [hfailed, Bool.not_false, Bool.and_true]
    exact hend.2.2
  | executing vChecks fOk nNow =>
    cases vChecks with
    | cons check rest => cases h
    | nil =>
      have hend := takeBatch_end fMaster (q.cleanUp fOk nNow)
      rw [Option.some.inj h] at hend
      refine ⟨rfl, hend.1, hend.2.1, ?_⟩
      rw [LoopState.failed, Bool.not_not]
      exact hend.2.2

end Sections

section Updates

variable {ι T : Type} [DecidableEq ι]

lemma sum_update [Fintype ι] {M : Type} [AddCommMonoid M] (g : LoopState T → M) (threads : Option ι → LoopState T)
    (i : Option ι) (loopState : LoopState T) :
    ∑ j, g (update threads i loopState j) + g (threads i) = ∑ j, g (threads j) + g loopState := by
  have hrest : ∑ j ∈ Finset.univ.erase i, g (update threads i loopState j) =
      ∑ j ∈ Finset.univ.erase i, g (threads j) := by
    apply sum_congr rfl
    intro j hj
    rw [update_of_ne (ne_of_mem_erase hj)]
  rw [← sum_erase_add _ _ (mem_univ i), ← sum_erase_add _ _ (mem_univ i), hrest,
    update_self]
  exact add_right_comm _ _ _

lemma apply_update {β : Type} (g : LoopState T → β) (threads : Option ι → LoopState T) (i : Option ι)
    {loopState : LoopState T} (h : g loopState = g (threads i)) (j : Option ι) :
    g (update threads i loopState j) = g (threads j) := by
  by_cases hj : j = i
  · rw [hj, update_self, h]
  · rw [update_of_ne hj]

end Updates

namespace CheckSession

section Invariant

variable {ι T : Type} [Fintype ι] {ok : T → Bool}

/-- A check that was evaluated has failed. -/
def SomeFailed (ok : T → Bool) (st : CheckSession ι T) : Prop := ∃ check ∈ st.evaluated, ok check = false

/-- What `Wait` has found. -/
structure Settled (ok : T → Bool) (st : CheckSession ι T) (fRet : Bool) : Prop where
  verdict : fRet = true ↔ ∀ check ∈ st.added, ok check = true
  queue : st.queue.queue = []
  idle : ∀ i, (st.threads i).unreported = 0
  reset : st.queue.fAllOk = true

/-- What holds whenever the mutex is free. -/
structure Inv (ok : T → Bool) (st : CheckSession ι T) : Prop where
  noQuit : st.queue.fQuit = false
  todo : st.queue.nTodo = st.queue.queue.length + ∑ i, (st.threads i).unreported
  sized : ∀ i, (st.threads i).Sized
  accounted : st.added = st.queue.queue + ∑ i, (st.threads i).pending + st.evaluated + st.skipped
  failedBatch : ∀ i, (st.threads i).failed = true → SomeFailed ok st
  failedAll : st.queue.fAllOk = false → SomeFailed ok st
  failedSkipped : st.skipped ≠ 0 → SomeFailed ok st
  kept : (∀ fRet, st.threads none ≠ .returned fRet) → SomeFailed ok st →
    st.queue.fAllOk = false ∨ ∃ i, (st.threads i).failed = true
  returned : ∀ fRet, st.threads none = .returned fRet → Settled ok st fRet

lemma inv_init (ok : T → Bool) (nBatchSizeIn : ℕ) : Inv ok (CheckSession.init ι T nBatchSizeIn) := by
  have hthreads : ∀ i, (CheckSession.init ι T nBatchSizeIn).threads i = .outside ∨
      (CheckSession.init ι T nBatchSizeIn).threads i = .starting := by
    rintro (_ | i)
    · exact Or.inl rfl
    · exact Or.inr rfl
  have hunreported : ∀ i, ((CheckSession.init ι T nBatchSizeIn).threads i).unreported = 0 := by
    intro i
    obtain h | h := hthreads i <;> rw [h] <;> rfl
  have hpending : ∀ i, ((CheckSession.init ι T nBatchSizeIn).threads i).pending = 0 := by
    intro i
    obtain h | h := hthreads i <;> rw [h] <;> rfl
  have hfailed : ∀ i, ((CheckSession.init ι T nBatchSizeIn).threads i).failed = false := by
    intro i
    obtain h | h := hthreads i <;> rw [h] <;> rfl
  refine ⟨rfl, ?_, ?_, ?_, ?_, fun h => absurd h (by simp [CheckSession.init, CCheckQueue.init]), fun h => absurd rfl h, ?_, ?_⟩
  · rw [sum_eq_zero (fun i _ => hunreported i)]
    rfl
  · intro i
    obtain h | h := hthreads i <;> rw [h] <;> trivial
  · rw [sum_eq_zero (fun i _ => hpending i)]
    rfl
  · intro i hi
    rw [hfailed] at hi
    cases hi
  · rintro - ⟨check, hmem, -⟩
    exact absurd hmem (Multiset.notMem_zero check)
  · intro fRet h
    cases h

variable {st : CheckSession ι T}

lemma Inv.of_unreported (h : Inv ok st) {i : Option ι} (hi : (st.threads i).unreported = 0) :
    (st.threads i).pending = 0 ∧ (st.threads i).failed = false := by
  cases hl : st.threads i with
  | executing vChecks fOk nNow =>
    have hsized := h.sized i
    rw [hl] at hi hsized
    exact absurd hsized.2 (by rw [show nNow = 0 from hi]; decide)
  | outside => exact ⟨rfl, rfl⟩
  | starting => exact ⟨rfl, rfl⟩
  | waiting => exact ⟨rfl, rfl⟩
  | returned fRet => exact ⟨rfl, rfl⟩

lemma Inv.add (h : Inv ok st) {vChecks : List T} (hout : st.threads none = .outside) :
    Inv ok { st with queue := st.queue.add vChecks, added := st.added + vChecks } := by
  refine ⟨h.noQuit, ?_, h.sized, ?_, h.failedBatch, h.failedAll, h.failedSkipped, h.kept, ?_⟩
  · have htodo := h.todo
    simp only [CCheckQueue.add, length_append, length_reverse]
    omega
  · rw [h.accounted]
    simp only [CCheckQueue.add, ← Multiset.coe_add, Multiset.coe_reverse]
    abel
  · intro fRet hret
    rw [hout] at hret
    cases hret

lemma Inv.someFailed_of_report (h : Inv ok st) {i : Option ι}
    (hall : (st.queue.fAllOk && !(st.threads i).failed) = false) : SomeFailed ok st := by
  rw [and_eq_false_iff, not_eq_false'] at hall
  obtain hall | hi := hall
  · exact h.failedAll hall
  · exact h.failedBatch i hi

lemma Inv.verdict (h : Inv ok st) (hqueue : st.queue.queue = []) {i : Option ι}
    (hidle : ∀ j, j ≠ i → (st.threads j).unreported = 0) (hpending : (st.threads i).pending = 0)
    (hnone : ∀ fRet, st.threads none ≠ .returned fRet) :
    (st.queue.fAllOk && !(st.threads i).failed) = true ↔ ∀ check ∈ st.added, ok check = true := by
  have hzero : ∀ j, (st.threads j).pending = 0 := by
    intro j
    by_cases hj : j = i
    · rw [hj, hpending]
    · exact (h.of_unreported (hidle j hj)).1
  have hadded : st.added = st.evaluated + st.skipped := by
    rw [h.accounted, hqueue, sum_eq_zero (fun j _ => hzero j)]
    simp
  constructor
  · intro hall
    rw [and_eq_true, not_eq_true'] at hall
    have hnot : ¬ SomeFailed ok st := by
      intro hsome
      obtain hfalse | ⟨j, hj⟩ := h.kept hnone hsome
      · rw [hall.1] at hfalse
        cases hfalse
      · by_cases hji : j = i
        · rw [hji, hall.2] at hj
          cases hj
        · rw [(h.of_unreported (hidle j hji)).2] at hj
          cases hj
    have hskipped : st.skipped = 0 := by_contra (fun hskip => hnot (h.failedSkipped hskip))
    intro check hmem
    rw [hadded, hskipped, add_zero] at hmem
    by_contra hfail
    exact hnot ⟨check, hmem, by simpa using hfail⟩
  · intro hadd
    by_contra hall
    obtain ⟨check, hmem, hfail⟩ := h.someFailed_of_report (i := i) (by simpa using hall)
    have hok := hadd check (by rw [hadded]; exact Multiset.mem_add.mpr (Or.inl hmem))
    rw [hok] at hfail
    cases hfail

end Invariant

section Steps

variable {ι T : Type} [Fintype ι] [DecidableEq ι] {ok : T → Bool} {st : CheckSession ι T}

lemma Inv.wait (h : Inv ok st) (hout : st.threads none = .outside) :
    Inv ok { st with threads := update st.threads none .starting } := by
  have hsame : ∀ {β : Type} (g : LoopState T → β), g .starting = g .outside →
      ∀ j, g (update st.threads none .starting j) = g (st.threads j) :=
    fun g hg => apply_update g st.threads none (hg.trans (by rw [hout]))
  have hfailed := hsame LoopState.failed rfl
  refine ⟨h.noQuit, ?_, ?_, ?_, ?_, h.failedAll, h.failedSkipped, ?_, ?_⟩
  · simp only [hsame LoopState.unreported rfl]
    exact h.todo
  · intro i
    rw [hsame LoopState.Sized rfl]
    exact h.sized i
  · simp only [hsame LoopState.pending rfl]
    exact h.accounted
  · intro i hi
    rw [hfailed] at hi
    exact h.failedBatch i hi
  · intro _ hsome
    simp only [hfailed]
    exact h.kept (fun fRet hret => by rw [hout] at hret; cases hret) hsome
  · intro fRet hret
    dsimp only at hret
    rw [update_self] at hret
    cases hret

lemma Inv.leave (h : Inv ok st) {fRet : Bool} (hret : st.threads none = .returned fRet) :
    Inv ok (⟨st.queue, update st.threads none .outside, 0, 0, 0⟩ : CheckSession ι T) := by
  have hsettled := h.returned fRet hret
  have hsame : ∀ {β : Type} (g : LoopState T → β), g .outside = g (.returned fRet) →
      ∀ j, g (update st.threads none .outside j) = g (st.threads j) :=
    fun g hg => apply_update g st.threads none (hg.trans (by rw [hret]))
  have hfailed : ∀ j, (update st.threads none .outside j).failed = false := by
    intro j
    rw [hsame LoopState.failed rfl]
    exact (h.of_unreported (hsettled.idle j)).2
  refine ⟨h.noQuit, ?_, ?_, ?_, ?_, ?_, fun hskip => absurd rfl hskip, ?_, ?_⟩
  · simp only [hsame LoopState.unreported rfl]
    exact h.todo
  · intro i
    rw [hsame LoopState.Sized rfl]
    exact h.sized i
  · simp only [hsame LoopState.pending rfl]
    rw [sum_eq_zero (fun i _ => (h.of_unreported (hsettled.idle i)).1), hsettled.queue]
    rfl
  · intro i hi
    rw [hfailed] at hi
    cases hi
  · intro hall
    rw [hsettled.reset] at hall
    cases hall
  · rintro - ⟨check, hmem, -⟩
    exact absurd hmem (Multiset.notMem_zero check)
  · intro fRet' hret'
    dsimp only at hret'
    rw [update_self] at hret'
    cases hret'

lemma Inv.execute (h : Inv ok st) {i : Option ι} {check : T} {rest : List T} {fOk : Bool} {nNow : ℕ}
    (hi : st.threads i = .executing (check :: rest) fOk nNow) : Inv ok (st.execute ok i check rest fOk nNow) := by
  have hunreported := apply_update LoopState.unreported st.threads i
    (show (LoopState.executing rest (fOk && ok check) nNow).unreported = _ by rw [hi]; rfl)
  have hpending : ∑ j, (st.threads j).pending =
      ∑ j, (update st.threads i (.executing rest (fOk && ok check) nNow) j).pending + {check} := by
    have hsum := sum_update LoopState.pending st.threads i (.executing rest (fOk && ok check) nNow)
    rw [hi] at hsum
    simp only [LoopState.pending, ← Multiset.cons_coe, ← Multiset.singleton_add] at hsum
    rw [← add_assoc] at hsum
    exact (add_right_cancel hsum).symm
  have hself : (st.execute ok i check rest fOk nNow).threads i = .executing rest (fOk && ok check) nNow :=
    update_self ..
  have hother : ∀ j, j ≠ i → (st.execute ok i check rest fOk nNow).threads j = st.threads j :=
    fun j hj => update_of_ne hj _ _
  have hbefore : fOk = false → SomeFailed ok st := by
    rintro rfl
    exact h.failedBatch i (by rw [hi]; rfl)
  have hmono : SomeFailed ok st → SomeFailed ok (st.execute ok i check rest fOk nNow) := by
    rintro ⟨c, hc, hfail⟩
    refine ⟨c, ?_, hfail⟩
    unfold CheckSession.execute
    dsimp only
    split_ifs
    · exact Multiset.mem_cons_of_mem hc
    · exact hc
  refine ⟨h.noQuit, ?_, ?_, ?_, ?_, fun hall => hmono (h.failedAll hall), ?_, ?_, ?_⟩
  · simp only [CheckSession.execute, hunreported]
    exact h.todo
  · intro j
    by_cases hj : j = i
    · have hsized := h.sized i
      rw [hi] at hsized
      rw [hj, hself]
      exact ⟨(Nat.le_succ _).trans hsized.1, hsized.2⟩
    · rw [hother j hj]
      exact h.sized j
  · unfold CheckSession.execute
    dsimp only
    rw [h.accounted, hpending]
    cases fOk
    · simp only [false_eq_true, if_false, ← Multiset.singleton_add]
      abel
    · simp only [if_true, ← Multiset.singleton_add]
      abel
  · intro j hj
    by_cases hji : j = i
    · rw [hji, hself] at hj
      cases fOk with
      | false => exact hmono (hbefore rfl)
      | true => exact ⟨check, Multiset.mem_cons_self _ _, by simpa [LoopState.failed] using hj⟩
    · rw [hother j hji] at hj
      exact hmono (h.failedBatch j hj)
  · intro hskip
    cases fOk with
    | false => exact hmono (hbefore rfl)
    | true => exact hmono (h.failedSkipped hskip)
  · intro hnone hsome
    have hnone' : ∀ fRet, st.threads none ≠ .returned fRet := by
      intro fRet hret
      by_cases hji : none = i
      · rw [hji, hi] at hret
        cases hret
      · exact hnone fRet (by rw [hother none hji, hret])
    have hnow : ok check = false ∨ fOk = false →
        ((st.execute ok i check rest fOk nNow).threads i).failed = true := by
      rw [hself]
      rintro (hc | hc) <;> simp [LoopState.failed, hc]
    by_cases hold : SomeFailed ok st
    · obtain hall | ⟨j, hj⟩ := h.kept hnone' hold
      · exact Or.inl hall
      · by_cases hji : j = i
        · rw [hji, hi] at hj
          exact Or.inr ⟨i, hnow (Or.inr (by simpa [LoopState.failed] using hj))⟩
        · exact Or.inr ⟨j, by rw [hother j hji]; exact hj⟩
    · -- Only the check that was just evaluated can have failed.
      obtain ⟨c, hc, hfail⟩ := hsome
      cases fOk with
      | false => exact absurd (hbefore rfl) hold
      | true =>
        obtain rfl | hc := Multiset.mem_cons.mp hc
        · exact Or.inr ⟨i, hnow (Or.inl hfail)⟩
        · exact absurd ⟨c, hc, hfail⟩ hold
  · intro fRet hret
    by_cases hji : none = i
    · rw [hji, hself] at hret
      cases hret
    · rw [hother none hji] at hret
      have hidle := (h.returned fRet hret).idle i
      have hsized := h.sized i
      rw [hi] at hidle hsized
      exact absurd hsized.2 (by rw [show nNow = 0 from hidle]; decide)

lemma Inv.reported (h : Inv ok st) {i : Option ι} {queue : CCheckQueue T} {loopState : LoopState T}
    (hquit : queue.fQuit = false)
    (htodo : queue.nTodo = queue.queue.length + ∑ j, (update st.threads i loopState j).unreported)
    (hpending : (queue.queue : Multiset T) + ∑ j, (update st.threads i loopState j).pending =
      st.queue.queue + ∑ j, (st.threads j).pending)
    (hsized : loopState.Sized)
    (hfailed : loopState.failed = true → (st.queue.fAllOk && !(st.threads i).failed) = false)
    (hall : queue.fAllOk = false → (st.queue.fAllOk && !(st.threads i).failed) = false)
    (hkept : (∀ fRet, update st.threads i loopState none ≠ .returned fRet) →
      (∀ fRet, st.threads none ≠ .returned fRet) ∧ queue.fAllOk = (st.queue.fAllOk && !(st.threads i).failed))
    (hreturned : ∀ fRet, update st.threads i loopState none = .returned fRet →
      Settled ok { st with queue := queue, threads := update st.threads i loopState } fRet) :
    Inv ok { st with queue := queue, threads := update st.threads i loopState } := by
  have hself : update st.threads i loopState i = loopState := update_self ..
  have hother : ∀ j, j ≠ i → update st.threads i loopState j = st.threads j :=
    fun j hj => update_of_ne hj _ _
  refine ⟨hquit, htodo, ?_, ?_, ?_, fun hfalse => h.someFailed_of_report (hall hfalse), h.failedSkipped, ?_,
    hreturned⟩
  · intro j
    by_cases hj : j = i
    · rw [hj]
      dsimp only
      rwa [hself]
    · dsimp only
      rw [hother j hj]
      exact h.sized j
  · dsimp only
    rw [hpending]
    exact h.accounted
  · intro j hj
    dsimp only at hj
    by_cases hji : j = i
    · rw [hji, hself] at hj
      exact h.someFailed_of_report (hfailed hj)
    · rw [hother j hji] at hj
      exact h.failedBatch j hj
  · intro hnone hsome
    obtain ⟨hnone', heq⟩ := hkept hnone
    dsimp only
    rw [heq]
    obtain hfalse | ⟨j, hj⟩ := h.kept hnone' hsome
    · exact Or.inl (by rw [hfalse, Bool.false_and])
    · by_cases hji : j = i
      · rw [hji] at hj
        exact Or.inl (by rw [hj, Bool.not_true, Bool.and_false])
      · exact Or.inr ⟨j, by rw [hother j hji]; exact hj⟩

lemma Inv.criticalSection (h : Inv ok st) {i : Option ι} {queue : CCheckQueue T} {loopState : LoopState T}
    (hsection : CCheckQueue.criticalSection i.isNone st.queue (st.threads i) = some (queue, loopState)) :
    Inv ok { st with queue := queue, threads := update st.threads i loopState } := by
  obtain ⟨hpending, htodo, hquit, hend⟩ := criticalSection_end hsection
  have hsumUnreported := sum_update LoopState.unreported st.threads i loopState
  have hsumPending := sum_update LoopState.pending st.threads i loopState
  rw [hpending, add_zero] at hsumPending
  have hle : (st.threads i).unreported ≤ ∑ j, (st.threads j).unreported :=
    single_le_sum (f := fun j => (st.threads j).unreported) (fun _ _ => Nat.zero_le _) (mem_univ i)
  have hold := h.todo
  rw [h.noQuit] at hquit hend
  have hbusy : ∀ fRet, st.threads i ≠ .returned fRet := by
    intro fRet hret
    rw [hret] at hsection
    cases hsection
  have hnone : (∀ fRet, update st.threads i loopState none ≠ .returned fRet) →
      ∀ fRet, st.threads none ≠ .returned fRet := by
    intro hnew fRet hret
    by_cases hi : none = i
    · exact hbusy fRet (hi ▸ hret)
    · exact hnew fRet (by rw [update_of_ne hi, hret])
  have hworker : ∀ fRet, update st.threads i loopState none = .returned fRet →
      (∀ fRet, loopState ≠ .returned fRet) → i ≠ none ∧ Settled ok st fRet := by
    intro fRet hret hnot
    by_cases hi : none = i
    · rw [← hi, update_self] at hret
      exact absurd hret (hnot fRet)
    · rw [update_of_ne hi] at hret
      exact ⟨Ne.symm hi, h.returned fRet hret⟩
  cases hend with
  | returned hempty hmay hzero hqueue hall =>
    -- Only the master returns, since the queue does not quit.
    obtain rfl : i = none := by simpa using hmay
    have hcount : queue.nTodo = queue.queue.length +
        ∑ j, (update st.threads none (.returned (st.queue.fAllOk && !(st.threads none).failed))
          j).unreported := by
      change _ = _ + 0 at hsumUnreported
      rw [hempty, length_nil] at hold
      rw [hqueue, length_nil]
      omega
    have hidle : ∀ j, (update st.threads none
        (.returned (st.queue.fAllOk && !(st.threads none).failed)) j).unreported = 0 := by
      rw [hzero, hqueue, length_nil, zero_add] at hcount
      intro j
      exact (sum_eq_zero_iff.mp hcount.symm) j (mem_univ j)
    apply h.reported hquit hcount
    · rw [hsumPending, hqueue, hempty]
      simp [LoopState.pending]
    · trivial
    · intro hfailed
      cases hfailed
    · intro hfalse
      rw [hall] at hfalse
      cases hfalse
    · intro hnew
      exact absurd (update_self ..) (hnew _)
    · intro fRet hret
      rw [update_self, LoopState.returned.injEq] at hret
      subst hret
      refine ⟨h.verdict hempty ?_ hpending hbusy, hqueue, hidle, hall⟩
      intro j hj
      have hj' := hidle j
      rwa [update_of_ne hj] at hj'
  | waiting hempty hqueue hall =>
    apply h.reported hquit
    · change _ = _ + 0 at hsumUnreported
      rw [hempty, length_nil] at hold
      rw [hqueue, length_nil]
      omega
    · rw [hsumPending, hqueue, hempty]
      simp [LoopState.pending]
    · trivial
    · intro hfailed
      cases hfailed
    · exact fun hfalse => hall.symm.trans hfalse
    · exact fun hnew => ⟨hnone hnew, hall⟩
    · intro fRet hret
      obtain ⟨hi, hsettled⟩ := hworker fRet hret (fun _ h => nomatch h)
      refine ⟨hsettled.verdict, hqueue, ?_, ?_⟩
      · intro j
        dsimp only
        by_cases hj : j = i
        · rw [hj, update_self]
          rfl
        · rw [update_of_ne hj]
          exact hsettled.idle j
      · dsimp only
        rw [hall, hsettled.reset, (h.of_unreported (hsettled.idle i)).2]
        rfl
  | @batch k hpos hlen hqueue hall =>
    apply h.reported hquit
    · change _ = _ + k at hsumUnreported
      rw [hqueue, length_drop]
      omega
    · have hsplit : (st.queue.queue : Multiset T) = st.queue.queue.take k + st.queue.queue.drop k := by
        rw [Multiset.coe_add, take_append_drop]
      rw [hsumPending, hqueue, hsplit, LoopState.pending]
      abel
    · exact ⟨length_take_le _ _, hpos⟩
    · intro hfailed
      rwa [LoopState.failed, not_eq_true'] at hfailed
    · exact fun hfalse => hall.symm.trans hfalse
    · exact fun hnew => ⟨hnone hnew, hall⟩
    · intro fRet hret
      obtain ⟨hi, hsettled⟩ := hworker fRet hret (fun _ h => nomatch h)
      rw [hsettled.queue, length_nil] at hlen
      omega

lemma Inv.step (h : Inv ok st) {st' : CheckSession ι T} (hstep : Step ok st st') : Inv ok st' := by
  cases hstep with
  | add vChecks hout => exact h.add hout
  | wait hout => exact h.wait hout
  | criticalSection i hsection => exact h.criticalSection hsection
  | execute i hi => exact h.execute hi
  | leave hret => exact h.leave hret

lemma Reachable.inv {nBatchSizeIn : ℕ} (h : Reachable ok nBatchSizeIn st) : Inv ok st := by
  induction h with
  | init => exact inv_init ok nBatchSizeIn
  | step _ hstep ih => exact ih.step hstep

end Steps

section Correct

variable {ι T : Type} [Fintype ι] [DecidableEq ι]

/-- With any number of workers and any batch size, in every state that any order of the steps leads to: the
counter counts the checks that are queued or not reported, so that no report takes it below zero; every check
of the session is queued, waits in a batch, was evaluated or was skipped, once; checks are skipped only if
another one has failed; and a `Wait` that has returned gives the verdict on all checks of the session, with
nothing left and the flag reset. -/
theorem checkQueue_correct (ok : T → Bool) (nBatchSizeIn : ℕ) (st : CheckSession ι T)
    (h : Reachable ok nBatchSizeIn st) :
    st.queue.nTodo = st.queue.queue.length + ∑ i, (st.threads i).unreported ∧
    (∀ i, (st.threads i).unreported ≤ st.queue.nTodo) ∧
    st.added = st.queue.queue + ∑ i, (st.threads i).pending + st.evaluated + st.skipped ∧
    (st.skipped ≠ 0 → ∃ check ∈ st.evaluated, ok check = false) ∧
    ∀ fRet, st.threads none = .returned fRet →
      (fRet = true ↔ ∀ check ∈ st.added, ok check = true) ∧ st.queue.queue = [] ∧
        (∀ i, (st.threads i).unreported = 0 ∧ (st.threads i).pending = 0) ∧ st.queue.fAllOk = true := by
  have hinv := h.inv
  refine ⟨hinv.todo, ?_, hinv.accounted, hinv.failedSkipped, ?_⟩
  · intro i
    have hle : (st.threads i).unreported ≤ ∑ j, (st.threads j).unreported :=
      single_le_sum (f := fun j => (st.threads j).unreported) (fun _ _ => Nat.zero_le _)
        (mem_univ i)
    rw [hinv.todo]
    omega
  · intro fRet hret
    have hsettled := hinv.returned fRet hret
    exact ⟨hsettled.verdict, hsettled.queue,
      fun i => ⟨hsettled.idle i, (hinv.of_unreported (hsettled.idle i)).1⟩, hsettled.reset⟩

/-- A worker has found a check to fail, and skipped the other one. -/
def failedSession : CheckSession (Fin 1) Bool where
  queue := ⟨[], 1, 1, true, 0, false, 128⟩
  threads := fun i => if i.isNone then .returned false else .waiting
  added := {false, true}
  evaluated := {false}
  skipped := {true}

lemma reachable_failedSession : Reachable id 128 failedSession := by
  have hasleep : Reachable id 128 _ := Reachable.init.step (Step.criticalSection (ι := Fin 1) (some 0) rfl)
  have hadded := hasleep.step (Step.add [true, false] rfl)
  have hstarted := hadded.step (Step.wait rfl)
  have htaken := hstarted.step (Step.criticalSection (some 0) rfl)
  have hfailed := htaken.step (Step.execute (some 0) rfl)
  -- the report comes before the other check is taken
  have hreported := hfailed.step (Step.criticalSection (some 0) rfl)
  have hskipped := hreported.step (Step.execute (some 0) rfl)
  have hidle := hskipped.step (Step.criticalSection (some 0) rfl)
  have hreturned := hidle.step (Step.criticalSection none rfl)
  refine cast (congrArg _ (congrArg₂ (fun threads added => CheckSession.mk _ threads added _ _) ?_ ?_)) hreturned
  · funext i
    cases i with
    | none => rfl
    | some i =>
      rw [Fin.eq_zero i]
      rfl
  · exact Multiset.pair_comm true false

theorem checkQueue_correct_failedSession :
    failedSession.threads none = .returned false ∧ (false = true ↔ ∀ check ∈ failedSession.added, id check = true) :=
  ⟨rfl, ((checkQueue_correct id 128 failedSession reachable_failedSession).2.2.2.2 false rfl).1⟩

end Correct

end CheckSession

end MutableBitcoin
