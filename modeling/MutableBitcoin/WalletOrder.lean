import MutableBitcoin.ConnectBlock
import MutableBitcoin.Lib.OrderedContainers

/-!
# The order of wallet transactions

`CWallet::ReorderTransactions` gives a position to the items without, and shifts the others.
-/

namespace MutableBitcoin
open Lib List

/-- A wallet transaction or an accounting entry. -/
inductive TxPair
  | wtx (hash : Uint256)
  | entry (nEntryNo : ℕ)
deriving DecidableEq

/-- An item with its time and its position, `-1` for none. -/
structure TxItem where
  tx : TxPair
  /-- `nTimeReceived` or `nTime`. -/
  nTime : ℤ
  nOrderPos : ℤ
deriving DecidableEq

/-- How the call can fail. -/
inductive ReorderFailure
  | loadFail
  | signedOverflow
deriving DecidableEq

namespace WalletOrder

def int64 (x : ℤ) : Except ReorderFailure ℤ :=
  if FitsInt64 x then .ok x else .error .signedOverflow

/-- The variables of the loop, with the positions of the items so far. -/
structure Reorder where
  nOrderPosNext : ℤ
  nOrderPosOffsets : List ℤ
  processed : List (TxItem × ℤ)

def nOrderPosOff (nOrderPosOffsets : List ℤ) (nOrderPos : ℤ) : ℕ :=
  nOrderPosOffsets.countP fun nOffsetStart => nOffsetStart ≤ nOrderPos

/-- `WriteTx` or `WriteAccountingEntry`. -/
def writeItem (write : TxPair → ℤ → Bool) (tx : TxPair) (nOrderPos : ℤ) : Except ReorderFailure Unit :=
  if write tx nOrderPos then .ok () else .error .loadFail

def writeBack (write : TxPair → ℤ → Bool) (off : ℕ) (tx : TxPair) (nOrderPos : ℤ) : Except ReorderFailure Unit :=
  if off = 0 then .ok () else writeItem write tx nOrderPos

/-- The loop body of `ReorderTransactions`. -/
def reorderStep (write : TxPair → ℤ → Bool) (st : Reorder) (item : TxItem) : Except ReorderFailure Reorder :=
  if item.nOrderPos = -1 then do
    let nOrderPos := st.nOrderPosNext
    let nOrderPosNext ← int64 (st.nOrderPosNext + 1)
    writeItem write item.tx nOrderPos
    .ok ⟨nOrderPosNext, st.nOrderPosOffsets ++ [nOrderPos], st.processed ++ [(item, nOrderPos)]⟩
  else do
    let off := nOrderPosOff st.nOrderPosOffsets item.nOrderPos
    let nOrderPos ← int64 (item.nOrderPos + off)
    let next ← int64 (nOrderPos + 1)
    writeBack write off item.tx nOrderPos
    .ok ⟨max st.nOrderPosNext next, st.nOrderPosOffsets, st.processed ++ [(item, nOrderPos)]⟩

def txByTime (mapWallet acentries : List TxItem) : List TxItem :=
  (mapWallet ++ acentries).foldl (fun items item => multimapInsert TxItem.nTime item items) []

def reorderTransactions (write : TxPair → ℤ → Bool) (mapWallet acentries : List TxItem) :
    Except ReorderFailure Reorder :=
  (txByTime mapWallet acentries).foldlM (reorderStep write) ⟨0, [], []⟩

/-! ### What the loop keeps -/

/-- What was ordered before keeps its order. -/
structure KeepsOrder (st : Reorder) : Prop where
  nonneg : ∀ x ∈ st.processed, 0 ≤ x.2
  relative : ∀ x ∈ st.processed, ∀ y ∈ st.processed, x.1.nOrderPos ≠ -1 → y.1.nOrderPos ≠ -1 →
    x.1.nOrderPos < y.1.nOrderPos → x.2 < y.2
  behind : st.processed.Pairwise fun x y => y.1.nOrderPos = -1 → x.2 < y.2
  next_gt : ∀ x ∈ st.processed, x.2 < st.nOrderPosNext

/-- Positions are not negative and differ from each other. -/
structure ProperPositions (items : List TxItem) : Prop where
  nonneg : ∀ item ∈ items, item.nOrderPos ≠ -1 → 0 ≤ item.nOrderPos
  distinct : items.Pairwise fun a b => a.nOrderPos ≠ -1 → a.nOrderPos ≠ b.nOrderPos

/-- Each position is shifted by the number of offsets up to it. -/
structure Shifted (st : Reorder) : Prop where
  next_nonneg : 0 ≤ st.nOrderPosNext
  offsets : st.nOrderPosOffsets.Pairwise (· < ·)
  offset_nonneg : ∀ o ∈ st.nOrderPosOffsets, 0 ≤ o
  offset_lt : ∀ o ∈ st.nOrderPosOffsets, o < st.nOrderPosNext
  given : (st.processed.filter fun x => x.1.nOrderPos = -1).map Prod.snd = st.nOrderPosOffsets
  position : ∀ x ∈ st.processed, x.1.nOrderPos ≠ -1 →
    0 ≤ x.1.nOrderPos ∧ x.2 = x.1.nOrderPos + nOrderPosOff st.nOrderPosOffsets x.1.nOrderPos
  next_gt : ∀ x ∈ st.processed, x.2 < st.nOrderPosNext
  behind : st.processed.Pairwise fun x y => y.1.nOrderPos = -1 → x.2 < y.2

/-- No position overflows or meets an offset. -/
def Meets (st : Reorder) (item : TxItem) : Prop :=
  if item.nOrderPos = -1 then FitsInt64 (st.nOrderPosNext + 1)
  else item.nOrderPos + nOrderPosOff st.nOrderPosOffsets item.nOrderPos ∉ st.nOrderPosOffsets ∧
    FitsInt64 (item.nOrderPos + nOrderPosOff st.nOrderPosOffsets item.nOrderPos + 1)

/-! ### Shifts -/

section Shift
variable {offsets : List ℤ} {o p q : ℤ}

lemma shift_lt (h : p < q) : p + nOrderPosOff offsets p < q + nOrderPosOff offsets q := by
  have hle : nOrderPosOff offsets p ≤ nOrderPosOff offsets q := by
    refine countP_mono_left fun o _ ho => ?_
    rw [decide_eq_true_eq] at ho ⊢
    exact ho.trans h.le
  omega

lemma nOrderPosOff_append (h : p < o) : nOrderPosOff (offsets ++ [o]) p = nOrderPosOff offsets p := by
  rw [nOrderPosOff, countP_append, countP_singleton, decide_eq_false (not_le.mpr h)]
  rfl

end Shift

section Step
variable {write : TxPair → ℤ → Bool} {st st' : Reorder} {item : TxItem}

lemma int64_eq_ok_iff {x y : ℤ} : int64 x = .ok y ↔ FitsInt64 x ∧ y = x := by
  rw [int64]
  split_ifs with h
  · simp [h, eq_comm]
  · simp [h]

lemma writeItem_eq (hwrite : ∀ tx pos, write tx pos = true) (tx : TxPair) (pos : ℤ) :
    writeItem write tx pos = .ok () := if_pos (hwrite tx pos)

lemma writeBack_eq (hwrite : ∀ tx pos, write tx pos = true) (off : ℕ) (tx : TxPair) (pos : ℤ) :
    writeBack write off tx pos = .ok () := by
  rw [writeBack, writeItem_eq hwrite]
  exact ite_self _

lemma step_given (hwrite : ∀ tx pos, write tx pos = true) (hitem : item.nOrderPos = -1) :
    reorderStep write st item = .ok st' ↔ FitsInt64 (st.nOrderPosNext + 1) ∧
      st' = ⟨st.nOrderPosNext + 1, st.nOrderPosOffsets ++ [st.nOrderPosNext],
        st.processed ++ [(item, st.nOrderPosNext)]⟩ := by
  rw [reorderStep, if_pos hitem]
  simp only [writeItem_eq hwrite, bind_eq_ok_iff, int64_eq_ok_iff]
  constructor
  · rintro ⟨next, ⟨hfits, rfl⟩, -, -, hst⟩
    cases hst
    exact ⟨hfits, rfl⟩
  · rintro ⟨hfits, rfl⟩
    exact ⟨_, ⟨hfits, rfl⟩, (), trivial, rfl⟩

lemma step_shifted (hwrite : ∀ tx pos, write tx pos = true) (hitem : item.nOrderPos ≠ -1)
    (hnonneg : 0 ≤ item.nOrderPos) :
    reorderStep write st item = .ok st' ↔
      FitsInt64 (item.nOrderPos + nOrderPosOff st.nOrderPosOffsets item.nOrderPos + 1) ∧
      st' = ⟨max st.nOrderPosNext (item.nOrderPos + nOrderPosOff st.nOrderPosOffsets item.nOrderPos + 1),
        st.nOrderPosOffsets,
        st.processed ++ [(item, item.nOrderPos + nOrderPosOff st.nOrderPosOffsets item.nOrderPos)]⟩ := by
  rw [reorderStep, if_neg hitem]
  simp only [writeBack_eq hwrite, bind_eq_ok_iff, int64_eq_ok_iff]
  constructor
  · rintro ⟨pos, ⟨-, rfl⟩, next, ⟨hfits, rfl⟩, -, -, hst⟩
    cases hst
    exact ⟨hfits, rfl⟩
  · rintro ⟨hfits, rfl⟩
    have hpos : FitsInt64 (item.nOrderPos + nOrderPosOff st.nOrderPosOffsets item.nOrderPos) := by
      obtain ⟨-, hlt⟩ := hfits
      exact ⟨by omega, by omega⟩
    exact ⟨_, ⟨hpos, rfl⟩, _, ⟨hfits, rfl⟩, (), trivial, rfl⟩

lemma shifted_start : Shifted ⟨0, [], []⟩ where
  next_nonneg := le_rfl
  offsets := List.Pairwise.nil
  offset_nonneg := by simp
  offset_lt := by simp
  given := rfl
  position := by simp
  next_gt := by simp
  behind := List.Pairwise.nil

lemma Shifted.step (h : Shifted st) (hwrite : ∀ tx pos, write tx pos = true)
    (hnonneg : item.nOrderPos ≠ -1 → 0 ≤ item.nOrderPos) (hstep : reorderStep write st item = .ok st') :
    Shifted st' := by
  by_cases hitem : item.nOrderPos = -1
  · obtain ⟨-, rfl⟩ := (step_given hwrite hitem).mp hstep
    have hnext := h.next_nonneg
    refine ⟨by dsimp only; omega, ?_, ?_, ?_, ?_, ?_, ?_, ?_⟩
    · exact pairwise_append.mpr ⟨h.offsets, pairwise_singleton _ _, fun o ho o' ho' => by
        rw [mem_singleton.mp ho']
        exact h.offset_lt o ho⟩
    · exact forall_mem_append.mpr ⟨h.offset_nonneg, fun o ho => by rwa [mem_singleton.mp ho]⟩
    · refine forall_mem_append.mpr ⟨fun o ho => (h.offset_lt o ho).trans (lt_add_one _), fun o ho => ?_⟩
      rw [mem_singleton.mp ho]
      exact lt_add_one _
    · have hlast : ([(item, st.nOrderPosNext)].filter fun x => x.1.nOrderPos = -1) = [(item, st.nOrderPosNext)] := by
        simp [hitem]
      dsimp only
      rw [filter_append, map_append, h.given, hlast]
      rfl
    · -- The new offset is above all positions, so it shifts none of them.
      refine forall_mem_append.mpr ⟨fun x hx hne => ?_, fun x hx hne => ?_⟩
      · obtain ⟨hx0, hpos⟩ := h.position x hx hne
        have hlt := h.next_gt x hx
        dsimp only
        rw [nOrderPosOff_append (by omega)]
        exact ⟨hx0, hpos⟩
      · rw [mem_singleton.mp hx] at hne
        exact absurd hitem hne
    · refine forall_mem_append.mpr ⟨fun x hx => (h.next_gt x hx).trans (lt_add_one _), fun x hx => ?_⟩
      rw [mem_singleton.mp hx]
      exact lt_add_one _
    · refine pairwise_append.mpr ⟨h.behind, pairwise_singleton _ _, fun x hx y hy _ => ?_⟩
      rw [mem_singleton.mp hy]
      exact h.next_gt x hx
  · obtain ⟨-, rfl⟩ := (step_shifted hwrite hitem (hnonneg hitem)).mp hstep
    refine ⟨h.next_nonneg.trans (le_max_left _ _), h.offsets, h.offset_nonneg, fun o ho => ?_, ?_, ?_, ?_, ?_⟩
    · exact (h.offset_lt o ho).trans_le (le_max_left _ _)
    · dsimp only
      rw [filter_append, map_append, h.given]
      simp [hitem]
    · refine forall_mem_append.mpr ⟨h.position, fun x hx hne => ?_⟩
      rw [mem_singleton.mp hx]
      exact ⟨hnonneg hitem, rfl⟩
    · refine forall_mem_append.mpr ⟨fun x hx => (h.next_gt x hx).trans_le (le_max_left _ _), fun x hx => ?_⟩
      rw [mem_singleton.mp hx]
      exact (lt_add_one _).trans_le (le_max_right _ _)
    · refine pairwise_append.mpr ⟨h.behind, pairwise_singleton _ _, fun x hx y hy hgiven => ?_⟩
      rw [mem_singleton.mp hy] at hgiven
      exact absurd hgiven hitem

lemma Shifted.given_mem (h : Shifted st) {x : TxItem × ℤ} (hx : x ∈ st.processed) (hgiven : x.1.nOrderPos = -1) :
    x.2 ∈ st.nOrderPosOffsets := by
  rw [← h.given]
  exact mem_map_of_mem (mem_filter.mpr ⟨hx, decide_eq_true hgiven⟩)

lemma Shifted.keepsOrder (h : Shifted st) : KeepsOrder st where
  nonneg x hx := by
    by_cases hgiven : x.1.nOrderPos = -1
    · exact h.offset_nonneg _ (h.given_mem hx hgiven)
    · obtain ⟨hnonneg, hpos⟩ := h.position x hx hgiven
      omega
  relative x hx y hy hxne hyne hlt := by
    rw [(h.position x hx hxne).2, (h.position y hy hyne).2]
    exact shift_lt hlt
  behind := h.behind
  next_gt := h.next_gt

/-- No shifted position is one that was given out. -/
def NoCollision (st : Reorder) : Prop :=
  ∀ x ∈ st.processed, x.1.nOrderPos ≠ -1 → x.2 ∉ st.nOrderPosOffsets

lemma Shifted.nodup_iff (h : Shifted st)
    (hdistinct : st.processed.Pairwise fun x y => x.1.nOrderPos ≠ -1 → x.1.nOrderPos ≠ y.1.nOrderPos) :
    (st.processed.map Prod.snd).Nodup ↔ NoCollision st := by
  constructor
  · intro hnodup x hx hne hin
    rw [← h.given, mem_map] at hin
    obtain ⟨u, hu, heq⟩ := hin
    obtain ⟨hu, hgiven⟩ := mem_filter.mp hu
    have hux : u = x := inj_on_of_nodup_map hnodup hu hx heq
    rw [hux, decide_eq_true_eq] at hgiven
    exact hne hgiven
  · intro hno
    rw [List.Nodup, pairwise_map]
    refine (h.behind.and hdistinct).imp_of_mem ?_
    rintro x y hx hy ⟨hbehind, hdistinct⟩ heq
    by_cases hygiven : y.1.nOrderPos = -1
    · exact absurd heq (hbehind hygiven).ne
    · by_cases hxgiven : x.1.nOrderPos = -1
      · exact hno y hy hygiven (heq ▸ h.given_mem hx hxgiven)
      · rw [(h.position x hx hxgiven).2, (h.position y hy hygiven).2] at heq
        obtain hlt | heq' | hlt := lt_trichotomy x.1.nOrderPos y.1.nOrderPos
        · exact absurd heq (shift_lt hlt).ne
        · exact hdistinct hxgiven heq'
        · exact absurd heq (shift_lt hlt).ne'

end Step

/-! ### Runs -/

/-- Every step of the run meets the condition. -/
def MeetsRun (write : TxPair → ℤ → Bool) (st : Reorder) : List TxItem → Prop
  | [] => True
  | item :: items => Meets st item ∧ ∀ st', reorderStep write st item = .ok st' → MeetsRun write st' items

section Run
variable {write : TxPair → ℤ → Bool} {st st' : Reorder} {items : List TxItem}

lemma step_iff (h : Shifted st) (hwrite : ∀ tx pos, write tx pos = true) {item : TxItem}
    (hnonneg : item.nOrderPos ≠ -1 → 0 ≤ item.nOrderPos) (hno : NoCollision st) :
    (∃ st', reorderStep write st item = .ok st' ∧ NoCollision st') ↔ Meets st item := by
  rw [Meets]
  by_cases hitem : item.nOrderPos = -1
  · rw [if_pos hitem]
    constructor
    · rintro ⟨st', hstep, -⟩
      exact ((step_given hwrite hitem).mp hstep).1
    · intro hfits
      refine ⟨_, (step_given hwrite hitem).mpr ⟨hfits, rfl⟩, ?_⟩
      refine forall_mem_append.mpr ⟨fun x hx hne hin => ?_, fun x hx hne => ?_⟩
      · obtain hin | hin := mem_append.mp hin
        · exact hno x hx hne hin
        · exact absurd (mem_singleton.mp hin) (h.next_gt x hx).ne
      · rw [mem_singleton.mp hx] at hne
        exact absurd hitem hne
  · rw [if_neg hitem]
    constructor
    · rintro ⟨st', hstep, hno'⟩
      obtain ⟨hfits, rfl⟩ := (step_shifted hwrite hitem (hnonneg hitem)).mp hstep
      exact ⟨hno' _ (mem_append_right _ (mem_singleton_self _)) hitem, hfits⟩
    · rintro ⟨hfree, hfits⟩
      refine ⟨_, (step_shifted hwrite hitem (hnonneg hitem)).mpr ⟨hfits, rfl⟩, ?_⟩
      refine forall_mem_append.mpr ⟨hno, fun x hx _ => ?_⟩
      rw [mem_singleton.mp hx]
      exact hfree

lemma step_processed (hwrite : ∀ tx pos, write tx pos = true) {item : TxItem}
    (hnonneg : item.nOrderPos ≠ -1 → 0 ≤ item.nOrderPos) (hstep : reorderStep write st item = .ok st') :
    st'.processed.map Prod.fst = st.processed.map Prod.fst ++ [item] ∧ (NoCollision st' → NoCollision st) := by
  by_cases hitem : item.nOrderPos = -1
  · obtain ⟨-, rfl⟩ := (step_given hwrite hitem).mp hstep
    refine ⟨map_append, fun hno x hx hne hin => ?_⟩
    exact hno x (mem_append_left _ hx) hne (mem_append_left _ hin)
  · obtain ⟨-, rfl⟩ := (step_shifted hwrite hitem (hnonneg hitem)).mp hstep
    exact ⟨map_append, fun hno x hx hne hin => hno x (mem_append_left _ hx) hne hin⟩

lemma Shifted.run (h : Shifted st) (hwrite : ∀ tx pos, write tx pos = true)
    (hnonneg : ∀ item ∈ items, item.nOrderPos ≠ -1 → 0 ≤ item.nOrderPos)
    (hrun : items.foldlM (reorderStep write) st = .ok st') :
    Shifted st' ∧ st'.processed.map Prod.fst = st.processed.map Prod.fst ++ items ∧
      (NoCollision st' → NoCollision st) := by
  induction items generalizing st with
  | nil =>
    cases hrun
    exact ⟨h, (append_nil _).symm, id⟩
  | cons item items ih =>
    rw [foldlM_cons, bind_eq_ok_iff] at hrun
    obtain ⟨st₁, hstep, hrun⟩ := hrun
    obtain ⟨hitem, hitems⟩ := forall_mem_cons.mp hnonneg
    obtain ⟨hprocessed, hno⟩ := step_processed hwrite hitem hstep
    obtain ⟨hshifted, hprocessed', hno'⟩ := ih (h.step hwrite hitem hstep) hitems hrun
    refine ⟨hshifted, ?_, fun hlast => hno (hno' hlast)⟩
    rw [hprocessed', hprocessed, append_assoc, singleton_append]

lemma run_iff (h : Shifted st) (hwrite : ∀ tx pos, write tx pos = true)
    (hnonneg : ∀ item ∈ items, item.nOrderPos ≠ -1 → 0 ≤ item.nOrderPos) (hno : NoCollision st) :
    (∃ st', items.foldlM (reorderStep write) st = .ok st' ∧ NoCollision st') ↔ MeetsRun write st items := by
  induction items generalizing st with
  | nil => exact iff_of_true ⟨st, rfl, hno⟩ trivial
  | cons item items ih =>
    obtain ⟨hitem, hitems⟩ := forall_mem_cons.mp hnonneg
    constructor
    · rintro ⟨st', hrun, hlast⟩
      rw [foldlM_cons, bind_eq_ok_iff] at hrun
      obtain ⟨st₁, hstep, hrun⟩ := hrun
      have hshifted := h.step hwrite hitem hstep
      have hno₁ := (hshifted.run hwrite hitems hrun).2.2 hlast
      refine ⟨(step_iff h hwrite hitem hno).mp ⟨st₁, hstep, hno₁⟩, fun st₂ hstep₂ => ?_⟩
      cases hstep.symm.trans hstep₂
      exact (ih hshifted hitems hno₁).mp ⟨st', hrun, hlast⟩
    · rintro ⟨hmeets, hrest⟩
      obtain ⟨st₁, hstep, hno₁⟩ := (step_iff h hwrite hitem hno).mpr hmeets
      obtain ⟨st', hrun, hlast⟩ := (ih (h.step hwrite hitem hstep) hitems hno₁).mpr (hrest st₁ hstep)
      refine ⟨st', ?_, hlast⟩
      rw [foldlM_cons, hstep]
      exact hrun

end Run

lemma foldl_multimapInsert (items acc : List TxItem) (hacc : KeySorted TxItem.nTime acc) :
    (items.foldl (fun items item => multimapInsert TxItem.nTime item items) acc).Perm (items ++ acc) ∧
      KeySorted TxItem.nTime (items.foldl (fun items item => multimapInsert TxItem.nTime item items) acc) := by
  induction items generalizing acc with
  | nil => exact ⟨List.Perm.refl _, hacc⟩
  | cons item items ih =>
    obtain ⟨hperm, hsorted⟩ := ih _ hacc.insert
    refine ⟨hperm.trans ?_, hsorted⟩
    exact ((multimapInsert_perm _ item acc).append_left items).trans perm_middle

lemma txByTime_spec (mapWallet acentries : List TxItem) :
    (txByTime mapWallet acentries).Perm (mapWallet ++ acentries) ∧
      KeySorted TxItem.nTime (txByTime mapWallet acentries) := by
  obtain ⟨hperm, hsorted⟩ := foldl_multimapInsert (mapWallet ++ acentries) [] List.Pairwise.nil
  rw [append_nil] at hperm
  exact ⟨hperm, hsorted⟩

/-- Old positions keep their order and items without one come behind those before them. All positions are distinct
exactly if no shifted position is one that was given out before. -/
theorem reorderTransactions_proper_iff {write : TxPair → ℤ → Bool} (hwrite : ∀ tx pos, write tx pos = true)
    {mapWallet acentries : List TxItem} (hpositions : ProperPositions (mapWallet ++ acentries)) :
    (∀ st, reorderTransactions write mapWallet acentries = .ok st →
      st.processed.map Prod.fst = txByTime mapWallet acentries ∧ KeepsOrder st) ∧
    ((∃ st, reorderTransactions write mapWallet acentries = .ok st ∧ KeepsOrder st ∧
        (st.processed.map Prod.snd).Nodup) ↔
      MeetsRun write ⟨0, [], []⟩ (txByTime mapWallet acentries)) := by
  obtain ⟨hperm, -⟩ := txByTime_spec mapWallet acentries
  have hnonneg : ∀ item ∈ txByTime mapWallet acentries, item.nOrderPos ≠ -1 → 0 ≤ item.nOrderPos :=
    fun item hitem => hpositions.nonneg item (hperm.mem_iff.mp hitem)
  have hrun : ∀ st, reorderTransactions write mapWallet acentries = .ok st →
      st.processed.map Prod.fst = txByTime mapWallet acentries ∧ Shifted st := by
    intro st hst
    obtain ⟨hshifted, hprocessed, -⟩ := shifted_start.run hwrite hnonneg hst
    exact ⟨hprocessed, hshifted⟩
  have hdistinct : ∀ st, reorderTransactions write mapWallet acentries = .ok st →
      st.processed.Pairwise fun x y => x.1.nOrderPos ≠ -1 → x.1.nOrderPos ≠ y.1.nOrderPos := by
    intro st hst
    have hsorted : (txByTime mapWallet acentries).Pairwise
        fun a b => a.nOrderPos ≠ -1 → a.nOrderPos ≠ b.nOrderPos := by
      refine (hperm.pairwise_iff ?_).mpr hpositions.distinct
      intro a b hab hne heq
      rw [← heq] at hab
      exact hab hne rfl
    rw [← (hrun st hst).1, pairwise_map] at hsorted
    exact hsorted
  have hempty : NoCollision ⟨0, [], []⟩ := by simp [NoCollision]
  refine ⟨fun st hst => ⟨(hrun st hst).1, (hrun st hst).2.keepsOrder⟩, ?_⟩
  rw [← run_iff shifted_start hwrite hnonneg hempty]
  refine exists_congr fun st => and_congr_right fun hst => ?_
  rw [(hrun st hst).2.nodup_iff (hdistinct st hst)]
  exact and_iff_right (hrun st hst).2.keepsOrder

/-- Of two items without a position and a later one at position zero, the last two get the same position. -/
theorem reorderTransactions_collides : ∃ st,
    reorderTransactions (fun _ _ => true) [] [⟨.entry 1, 1, -1⟩, ⟨.entry 2, 2, -1⟩, ⟨.entry 3, 3, 0⟩] = .ok st ∧
      ¬ (st.processed.map Prod.snd).Nodup :=
  ⟨_, rfl, by decide⟩

theorem reorderTransactions_proper_iff_two :
    KeepsOrder ⟨2, [0], [(⟨.entry 2, 1, -1⟩, 0), (⟨.entry 1, 2, 0⟩, 1)]⟩ := by
  have hpositions : ProperPositions ([] ++ [⟨.entry 1, 2, 0⟩, ⟨.entry 2, 1, -1⟩]) := ⟨by decide, by decide⟩
  have hwrite : ∀ tx pos, (fun (_ : TxPair) (_ : ℤ) => true) tx pos = true := fun _ _ => rfl
  exact ((reorderTransactions_proper_iff hwrite hpositions).1 _ rfl).2

end WalletOrder
end MutableBitcoin
