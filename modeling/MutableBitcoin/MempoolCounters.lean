import MutableBitcoin.Lib.Dag
import MutableBitcoin.Mempool
import Mathlib.Algebra.BigOperators.Pi
import Mathlib.Algebra.Order.BigOperators.Group.Finset

/-!
# The counters of the entries

An entry counts its descendants and its ancestors. The updates of these counters are shifts, which
add up along a run of updates.
-/

namespace MutableBitcoin
open Lib Finset

namespace CTxMemPoolEntry

variable {sha256 : Bytes → Uint256}

def descendantState (e : CTxMemPoolEntry sha256) : ℤ × ℤ × ℤ :=
  (e.nSizeWithDescendants, e.nModFeesWithDescendants, e.nCountWithDescendants)

def ancestorState (e : CTxMemPoolEntry sha256) : ℤ × ℤ × ℤ × ℤ :=
  (e.nSizeWithAncestors, e.nModFeesWithAncestors, e.nCountWithAncestors, e.nSigOpCostWithAncestors)

def descendantShare (e : CTxMemPoolEntry sha256) : ℤ × ℤ × ℤ := (e.getTxSize, e.getModifiedFee, 1)

def ancestorShare (e : CTxMemPoolEntry sha256) : ℤ × ℤ × ℤ × ℤ :=
  (e.getTxSize, e.getModifiedFee, 1, e.sigOpCost)

/-- The entry without its position in `vTxHashes`. -/
def core (e : CTxMemPoolEntry sha256) : CTxMemPoolEntry sha256 := { e with vTxHashesIdx := 0 }

/-- The entry with its counters moved. -/
def shift (d : ℤ × ℤ × ℤ) (a : ℤ × ℤ × ℤ × ℤ) (e : CTxMemPoolEntry sha256) : CTxMemPoolEntry sha256 :=
  { e with
    nSizeWithDescendants := e.nSizeWithDescendants + d.1
    nModFeesWithDescendants := e.nModFeesWithDescendants + d.2.1
    nCountWithDescendants := e.nCountWithDescendants + d.2.2
    nSizeWithAncestors := e.nSizeWithAncestors + a.1
    nModFeesWithAncestors := e.nModFeesWithAncestors + a.2.1
    nCountWithAncestors := e.nCountWithAncestors + a.2.2.1
    nSigOpCostWithAncestors := e.nSigOpCostWithAncestors + a.2.2.2 }

@[simp]
lemma shift_zero (e : CTxMemPoolEntry sha256) : e.shift 0 0 = e := by
  simp [shift]

lemma map_shift_zero (o : Option (CTxMemPoolEntry sha256)) : o.map (·.shift 0 0) = o := by
  cases o <;> simp

lemma shift_shift (e : CTxMemPoolEntry sha256) (d d' : ℤ × ℤ × ℤ) (a a' : ℤ × ℤ × ℤ × ℤ) :
    (e.shift d a).shift d' a' = e.shift (d + d') (a + a') := by
  simp [shift, add_assoc]

@[simp]
lemma descendantState_shift (e : CTxMemPoolEntry sha256) (d : ℤ × ℤ × ℤ) (a : ℤ × ℤ × ℤ × ℤ) :
    (e.shift d a).descendantState = e.descendantState + d := rfl

@[simp]
lemma ancestorState_shift (e : CTxMemPoolEntry sha256) (d : ℤ × ℤ × ℤ) (a : ℤ × ℤ × ℤ × ℤ) :
    (e.shift d a).ancestorState = e.ancestorState + a := rfl

lemma updateDescendantState_eq {e : CTxMemPoolEntry sha256} {modifySize modifyFee modifyCount : ℤ}
    (hsize : 0 < e.nSizeWithDescendants + modifySize) (hcount : 0 < e.nCountWithDescendants + modifyCount) :
    e.updateDescendantState modifySize modifyFee modifyCount =
      some (e.shift (modifySize, modifyFee, modifyCount) 0) := by
  rw [updateDescendantState, if_pos ⟨hsize, hcount⟩]
  simp [shift]

lemma updateAncestorState_eq {e : CTxMemPoolEntry sha256} {modifySize modifyFee modifyCount modifySigOps : ℤ}
    (hsize : 0 < e.nSizeWithAncestors + modifySize) (hcount : 0 < e.nCountWithAncestors + modifyCount)
    (hsigops : 0 ≤ e.nSigOpCostWithAncestors + modifySigOps) :
    e.updateAncestorState modifySize modifyFee modifyCount modifySigOps =
      some (e.shift 0 (modifySize, modifyFee, modifyCount, modifySigOps)) := by
  rw [updateAncestorState, if_pos ⟨hsize, hcount, hsigops⟩]
  simp [shift]

end CTxMemPoolEntry

namespace CTxMemPool

variable {sha256 : Bytes → Uint256}

section Core

variable (pool : CTxMemPool sha256)

def coreAt (it : Uint256) : Option (CTxMemPoolEntry sha256) := (pool.mapTx.lookup it).map (·.core)

def descendantShareAt (it : Uint256) : ℤ × ℤ × ℤ := ((pool.coreAt it).map (·.descendantShare)).getD 0

def ancestorShareAt (it : Uint256) : ℤ × ℤ × ℤ × ℤ := ((pool.coreAt it).map (·.ancestorShare)).getD 0

def linkSize (links : TxLinks) : ℤ := setNodeUsage * links.parents.card + setNodeUsage * links.children.card

def linkUsage : ℤ := ∑ it ∈ pool.mapLinks.keys, linkSize (pool.linksAt it)

end Core

section Lookups

variable {pool : CTxMemPool sha256} {it : Uint256}

lemma mem_mapTx_iff_coreAt : it ∈ pool.mapTx ↔ (pool.coreAt it).isSome := by
  rw [coreAt, Option.isSome_map, Finmap.lookup_isSome]

lemma exists_coreAt (h : it ∈ pool.mapTx) : ∃ e, pool.coreAt it = some e :=
  Option.isSome_iff_exists.mp (mem_mapTx_iff_coreAt.mp h)

lemma mem_of_coreAt {e : CTxMemPoolEntry sha256} (h : pool.coreAt it = some e) : it ∈ pool.mapTx :=
  mem_mapTx_iff_coreAt.mpr (by rw [h]; rfl)

lemma valueAt_eq_of_core {f : CTxMemPoolEntry sha256 → ℤ} (hf : ∀ e, f e.core = f e) {e : CTxMemPoolEntry sha256}
    (h : pool.coreAt it = some e) : pool.valueAt f it = f e := by
  obtain ⟨e₀, he₀, rfl⟩ := Option.map_eq_some_iff.mp h
  rw [valueAt, he₀, hf]
  rfl

lemma descendantShareAt_eq {e : CTxMemPoolEntry sha256} (h : pool.coreAt it = some e) :
    pool.descendantShareAt it = e.descendantShare := by
  rw [descendantShareAt, h]
  rfl

lemma ancestorShareAt_eq {e : CTxMemPoolEntry sha256} (h : pool.coreAt it = some e) :
    pool.ancestorShareAt it = e.ancestorShare := by
  rw [ancestorShareAt, h]
  rfl

end Lookups

section Shifts

/-- The counters of each entry are shifted by `d` and `a`. -/
structure Shifted (pool pool' : CTxMemPool sha256) (d : Uint256 → ℤ × ℤ × ℤ) (a : Uint256 → ℤ × ℤ × ℤ × ℤ) :
    Prop where
  entries : ∀ it, pool'.coreAt it = (pool.coreAt it).map (·.shift (d it) (a it))
  mapNextTx : pool'.mapNextTx = pool.mapNextTx
  mapDeltas : pool'.mapDeltas = pool.mapDeltas
  totalTxSize : pool'.totalTxSize = pool.totalTxSize
  balance : pool'.cachedInnerUsage - pool'.linkUsage = pool.cachedInnerUsage - pool.linkUsage

variable {pool pool' pool'' : CTxMemPool sha256} {d d' : Uint256 → ℤ × ℤ × ℤ} {a a' : Uint256 → ℤ × ℤ × ℤ × ℤ}

lemma Shifted.refl (pool : CTxMemPool sha256) : Shifted pool pool 0 0 :=
  ⟨fun it => by simp, rfl, rfl, rfl, rfl⟩

lemma Shifted.trans (h : Shifted pool pool' d a) (h' : Shifted pool' pool'' d' a') :
    Shifted pool pool'' (d + d') (a + a') := by
  refine ⟨?_, h'.mapNextTx.trans h.mapNextTx, h'.mapDeltas.trans h.mapDeltas,
    h'.totalTxSize.trans h.totalTxSize, h'.balance.trans h.balance⟩
  intro it
  rw [h'.entries, h.entries, Option.map_map]
  congr 1
  funext e
  exact e.shift_shift _ _ _ _

lemma Shifted.congr (h : Shifted pool pool' d a) (hd : ∀ it ∈ pool.mapTx, d it = d' it)
    (ha : ∀ it ∈ pool.mapTx, a it = a' it) : Shifted pool pool' d' a' := by
  refine ⟨?_, h.mapNextTx, h.mapDeltas, h.totalTxSize, h.balance⟩
  intro it
  rw [h.entries]
  cases hit : pool.coreAt it with
  | none => rfl
  | some e => rw [hd it (mem_of_coreAt hit), ha it (mem_of_coreAt hit)]

lemma Shifted.coreAt (h : Shifted pool pool' d a) {it : Uint256} {e : CTxMemPoolEntry sha256}
    (he : pool.coreAt it = some e) : pool'.coreAt it = some (e.shift (d it) (a it)) := by
  rw [h.entries, he]
  rfl

lemma Shifted.mem_iff (h : Shifted pool pool' d a) (it : Uint256) : it ∈ pool'.mapTx ↔ it ∈ pool.mapTx := by
  rw [mem_mapTx_iff_coreAt, mem_mapTx_iff_coreAt, h.entries, Option.isSome_map]

lemma Shifted.keys (h : Shifted pool pool' d a) : pool'.mapTx.keys = pool.mapTx.keys := by
  ext it
  rw [Finmap.mem_keys, Finmap.mem_keys, h.mem_iff]

lemma Shifted.exists_coreAt (h : Shifted pool pool' d a) {it : Uint256} {e' : CTxMemPoolEntry sha256}
    (he' : pool'.coreAt it = some e') : ∃ e, pool.coreAt it = some e ∧ e' = e.shift (d it) (a it) := by
  rw [h.entries, Option.map_eq_some_iff] at he'
  obtain ⟨e, he, heq⟩ := he'
  exact ⟨e, he, heq.symm⟩

lemma Shifted.descendantShareAt (h : Shifted pool pool' d a) (it : Uint256) :
    pool'.descendantShareAt it = pool.descendantShareAt it := by
  unfold CTxMemPool.descendantShareAt
  rw [h.entries, Option.map_map]
  rfl

lemma Shifted.ancestorShareAt (h : Shifted pool pool' d a) (it : Uint256) :
    pool'.ancestorShareAt it = pool.ancestorShareAt it := by
  unfold CTxMemPool.ancestorShareAt
  rw [h.entries, Option.map_map]
  rfl

lemma Shifted.exists_tx_iff (h : Shifted pool pool' d a) {it : Uint256} (P : CTransaction sha256 → Prop) :
    (∃ e, pool'.coreAt it = some e ∧ P e.tx) ↔ ∃ e, pool.coreAt it = some e ∧ P e.tx := by
  constructor
  · rintro ⟨e', he', hP⟩
    obtain ⟨e, he, rfl⟩ := h.exists_coreAt he'
    exact ⟨e, he, hP⟩
  · rintro ⟨e, he, hP⟩
    exact ⟨_, h.coreAt he, hP⟩

lemma Shifted.sum_valueAt (h : Shifted pool pool' d a) {f : CTxMemPoolEntry sha256 → ℤ} (hf : ∀ e, f e.core = f e)
    (hf' : ∀ e d a, f (e.shift d a) = f e) :
    ∑ it ∈ pool'.mapTx.keys, pool'.valueAt f it = ∑ it ∈ pool.mapTx.keys, pool.valueAt f it := by
  rw [h.keys]
  apply sum_congr rfl
  intro it hit
  obtain ⟨e, he⟩ := CTxMemPool.exists_coreAt (Finmap.mem_keys.mp hit)
  rw [valueAt_eq_of_core hf (h.coreAt he), hf', valueAt_eq_of_core hf he]

lemma Modified.shifted {s : SetEntries} {f : CTxMemPoolEntry sha256 → Option (CTxMemPoolEntry sha256)}
    {δ : ℤ × ℤ × ℤ} {ε : ℤ × ℤ × ℤ × ℤ} (h : Modified pool s f pool')
    (hf : ∀ it ∈ s, ∀ e, pool.mapTx.lookup it = some e → f e = some (e.shift δ ε)) :
    Shifted pool pool' (fun it => if it ∈ s then δ else 0) (fun it => if it ∈ s then ε else 0) := by
  refine ⟨?_, by rw [h.rest], by rw [h.rest], by rw [h.rest], by rw [h.rest]; rfl⟩
  intro it
  unfold CTxMemPool.coreAt
  by_cases hit : it ∈ s
  · rw [if_pos hit, if_pos hit, h.inside it hit]
    cases he : pool.mapTx.lookup it with
    | none => rfl
    | some e =>
      rw [Option.bind_some, hf it hit e he]
      rfl
  · rw [if_neg hit, if_neg hit, h.outside it hit, CTxMemPoolEntry.map_shift_zero]

end Shifts

section LinkUsage

variable {pool : CTxMemPool sha256}

lemma linksAt_insert (pool : CTxMemPool sha256) (mapLinks : Finmap (fun _ : Uint256 => TxLinks)) (usage : ℤ) (entry it : Uint256)
    (links : TxLinks) :
    ({ pool with mapLinks := mapLinks.insert entry links, cachedInnerUsage := usage } : CTxMemPool sha256).linksAt
      it = if it = entry then links else (mapLinks.lookup it).getD ⟨∅, ∅⟩ := by
  unfold linksAt
  dsimp only
  rw [lookup_insert_apply]
  split_ifs <;> rfl

lemma linkSize_of_notMem {it : Uint256} (h : it ∉ pool.mapLinks) : linkSize (pool.linksAt it) = 0 := by
  rw [linksAt, Finmap.lookup_eq_none.mpr h]
  rfl

lemma keys_insert {V : Type} (m : Finmap (fun _ : Uint256 => V)) (k : Uint256) (v : V) :
    (m.insert k v).keys = insert k m.keys := by
  ext x
  rw [Finmap.mem_keys, Finmap.mem_insert, mem_insert, Finmap.mem_keys]

lemma keys_erase {V : Type} (m : Finmap (fun _ : Uint256 => V)) (k : Uint256) :
    (m.erase k).keys = m.keys.erase k := by
  ext x
  rw [Finmap.mem_keys, Finmap.mem_erase, mem_erase, Finmap.mem_keys]

lemma linkUsage_insert (pool : CTxMemPool sha256) (entry : Uint256) (links : TxLinks) (usage : ℤ) :
    ({ pool with mapLinks := pool.mapLinks.insert entry links, cachedInnerUsage := usage } :
      CTxMemPool sha256).linkUsage = pool.linkUsage - linkSize (pool.linksAt entry) + linkSize links := by
  unfold linkUsage
  rw [keys_insert, ← add_sum_erase _ _ (mem_insert_self entry _), erase_insert_eq_erase]
  have hself := linksAt_insert pool pool.mapLinks usage entry entry links
  rw [if_pos rfl] at hself
  have hrest : ∑ it ∈ pool.mapLinks.keys.erase entry, linkSize
      (({ pool with mapLinks := pool.mapLinks.insert entry links, cachedInnerUsage := usage } :
        CTxMemPool sha256).linksAt it) = ∑ it ∈ pool.mapLinks.keys.erase entry, linkSize (pool.linksAt it) := by
    apply sum_congr rfl
    intro it hit
    rw [linksAt_insert, if_neg (ne_of_mem_erase hit)]
    rfl
  rw [hself, hrest]
  by_cases hmem : entry ∈ pool.mapLinks
  · rw [← add_sum_erase _ _ (Finmap.mem_keys.mpr hmem)]
    ring
  · rw [erase_eq_of_notMem (fun h => hmem (Finmap.mem_keys.mp h)), linkSize_of_notMem hmem]
    ring

lemma card_insert_cast (s : SetEntries) (x : Uint256) :
    ((insert x s).card : ℤ) = s.card + if x ∈ s then 0 else 1 := by
  split_ifs with h
  · rw [insert_eq_of_mem h, add_zero]
  · rw [card_insert_of_notMem h]
    push_cast
    rfl

lemma card_erase_cast (s : SetEntries) (x : Uint256) :
    ((s.erase x).card : ℤ) = s.card - if x ∈ s then 1 else 0 := by
  split_ifs with h
  · rw [card_erase_of_mem h, Nat.cast_sub (card_pos.mpr ⟨x, h⟩)]
    rfl
  · rw [erase_eq_of_notMem h, sub_zero]

lemma shifted_updateChild (pool : CTxMemPool sha256) (entry child : Uint256) (add : Bool) :
    Shifted pool (pool.updateChild entry child add) 0 0 := by
  have hchanged := linksChanged_updateChild pool entry child add
  refine ⟨?_, by rw [hchanged], by rw [hchanged], by rw [hchanged], ?_⟩
  · intro it
    rw [coreAt, hchanged.mapTx, coreAt]
    exact (CTxMemPoolEntry.map_shift_zero _).symm
  · cases add
    · simp only [updateChild, Bool.false_eq_true, if_false, linkUsage_insert, linkSize, card_erase_cast]
      split_ifs <;> ring
    · simp only [updateChild, if_true, linkUsage_insert, linkSize, card_insert_cast]
      split_ifs <;> ring

lemma shifted_updateParent (pool : CTxMemPool sha256) (entry parent : Uint256) (add : Bool) :
    Shifted pool (pool.updateParent entry parent add) 0 0 := by
  have hchanged := linksChanged_updateParent pool entry parent add
  refine ⟨?_, by rw [hchanged], by rw [hchanged], by rw [hchanged], ?_⟩
  · intro it
    rw [coreAt, hchanged.mapTx, coreAt]
    exact (CTxMemPoolEntry.map_shift_zero _).symm
  · cases add
    · simp only [updateParent, Bool.false_eq_true, if_false, linkUsage_insert, linkSize, card_erase_cast]
      split_ifs <;> ring
    · simp only [updateParent, if_true, linkUsage_insert, linkSize, card_insert_cast]
      split_ifs <;> ring

lemma shifted_foldl (pool : CTxMemPool sha256) {ι : Type} (l : List ι) {step : CTxMemPool sha256 → ι → CTxMemPool sha256}
    (h : ∀ pool i, Shifted pool (step pool i) 0 0) : Shifted pool (l.foldl step pool) 0 0 := by
  induction l generalizing pool with
  | nil => exact Shifted.refl pool
  | cons i l ih =>
    have hstep := (h pool i).trans (ih (step pool i))
    rwa [add_zero, add_zero] at hstep

end LinkUsage

end CTxMemPool

/-! ## Ancestors and descendants in the pool -/

namespace CTxMemPool

variable {sha256 : Bytes → Uint256}

/-- The links form a graph without cycles on the entries. -/
structure Linked (pool : CTxMemPool sha256) : Prop where
  dag : Dag pool.mapTx.keys pool.getMemPoolParents pool.getMemPoolChildren
  domain : ∀ it, it ∈ pool.mapLinks ↔ it ∈ pool.mapTx
  ids : ∀ it e, pool.coreAt it = some e → e.tx.hash = it

def parentsOf (pool : CTxMemPool sha256) (tx : CTransaction sha256) : SetEntries :=
  (tx.vin.map (·.prevout.hash)).toFinset.filter (· ∈ pool.mapTx)

noncomputable def descendants (pool : CTxMemPool sha256) (it : Uint256) : SetEntries :=
  below pool.mapTx.keys pool.getMemPoolChildren it

noncomputable def ancestors (pool : CTxMemPool sha256) (it : Uint256) : SetEntries :=
  above pool.mapTx.keys pool.getMemPoolChildren it

section Loops

variable {pool : CTxMemPool sha256} {limits : ChainLimits}

lemma stageParents_ok {setAncestors s : SetEntries} {l : List Uint256} {parentHashes : SetEntries}
    (h : stageParents limits setAncestors l parentHashes = .ok s) :
    s = parentHashes ∪ l.toFinset.filter (· ∉ setAncestors) := by
  induction l generalizing parentHashes with
  | nil =>
    obtain rfl := Except.ok.inj h
    simp
  | cons phash l ih =>
    unfold stageParents at h
    dsimp only at h
    split_ifs at h with hmem hlimit hlimit
    · rw [ih h, List.toFinset_cons, filter_insert, if_neg (fun hnot => hnot hmem)]
    · rw [ih h, List.toFinset_cons, filter_insert, if_pos hmem, insert_union,
        union_insert]

lemma stageParents_noLimit (setAncestors : SetEntries) (l : List Uint256) (parentHashes : SetEntries) :
    ∃ s, stageParents nNoLimit setAncestors l parentHashes = .ok s := by
  induction l generalizing parentHashes with
  | nil => exact ⟨parentHashes, rfl⟩
  | cons phash l ih => exact ih _

lemma ancestorLoop_ok {nTxSize totalSizeWithAncestors : ℤ} {fuel : ℕ} {parentHashes setAncestors s : SetEntries}
    (h : ancestorLoop pool limits nTxSize fuel parentHashes setAncestors totalSizeWithAncestors = .ok s) :
    s = worklist SetEntries.first pool.getMemPoolParents fuel parentHashes setAncestors := by
  induction fuel generalizing parentHashes setAncestors totalSizeWithAncestors with
  | zero => exact (Except.ok.inj h).symm
  | succ fuel ih =>
    unfold ancestorLoop at h
    unfold worklist
    cases hfirst : parentHashes.first with
    | none =>
      rw [hfirst] at h
      exact (Except.ok.inj h).symm
    | some stageit =>
      rw [hfirst] at h
      dsimp only at h ⊢
      split_ifs at h
      obtain ⟨staged, hstaged, h⟩ := bind_eq_ok_iff.mp h
      rw [ih h, stageParents_ok hstaged, toFinset_inOrder]

lemma ancestorLoop_noLimit (pool : CTxMemPool sha256) (nTxSize totalSizeWithAncestors : ℤ) (fuel : ℕ) (parentHashes setAncestors : SetEntries) :
    ∃ s, ancestorLoop pool nNoLimit nTxSize fuel parentHashes setAncestors totalSizeWithAncestors = .ok s := by
  induction fuel generalizing parentHashes setAncestors totalSizeWithAncestors with
  | zero => exact ⟨setAncestors, rfl⟩
  | succ fuel ih =>
    unfold ancestorLoop
    cases parentHashes.first with
    | none => exact ⟨setAncestors, rfl⟩
    | some stageit =>
      obtain ⟨staged, hstaged⟩ := stageParents_noLimit (insert stageit setAncestors)
        (pool.getMemPoolParents stageit).inOrder (parentHashes.erase stageit)
      simp only [nNoLimit, exceeds, Bool.false_eq_true, if_false]
      rw [show stageParents ⟨none, none, none, none⟩ _ _ _ = _ from hstaged]
      exact ih _ _ _

lemma searchParents_ok {vin : List CTxIn} {parentHashes s : SetEntries}
    (h : searchParents pool limits vin parentHashes = .ok s) :
    s = parentHashes ∪ (vin.map (·.prevout.hash)).toFinset.filter (· ∈ pool.mapTx) := by
  induction vin generalizing parentHashes with
  | nil =>
    obtain rfl := Except.ok.inj h
    simp
  | cons txin vin ih =>
    unfold searchParents at h
    dsimp only at h
    rw [List.map_cons, List.toFinset_cons, filter_insert]
    split_ifs at h ⊢ with hmem hlimit
    · rw [ih h, insert_union, union_insert]
    · rw [ih h]

end Loops

section Traversals

variable {pool : CTxMemPool sha256}

lemma staged_init {next : Uint256 → SetEntries} {univ stage : SetEntries} (hstage : stage ⊆ univ)
    (hnext : ∀ x ∈ univ, next x ⊆ univ) : Staged next univ stage ∅ :=
  ⟨hstage, hnext, disjoint_empty_right stage, fun x hx => absurd hx (notMem_empty x)⟩

lemma mem_worklist_parents {parentHashes : SetEntries} (hstage : parentHashes ⊆ pool.mapTx.keys)
    (hsub : ∀ x ∈ pool.mapTx.keys, pool.getMemPoolParents x ⊆ pool.mapTx.keys) {y : Uint256} :
    y ∈ worklist SetEntries.first pool.getMemPoolParents pool.mapTx.keys.card parentHashes ∅ ↔
      ∃ p ∈ parentHashes, Reaches pool.getMemPoolParents p y := by
  rw [mem_worklist_iff SetEntries.takes_first (staged_init hstage hsub) (by rw [sdiff_empty])]
  simp

lemma mem_linkedAncestors (hids : ∀ it e, pool.coreAt it = some e → e.tx.hash = it)
    (hsub : ∀ x ∈ pool.mapTx.keys, pool.getMemPoolParents x ⊆ pool.mapTx.keys) {it y : Uint256}
    (hit : it ∈ pool.mapTx) :
    y ∈ pool.linkedAncestors it ↔ ∃ p ∈ pool.getMemPoolParents it, Reaches pool.getMemPoolParents p y := by
  obtain ⟨e, he⟩ := Option.isSome_iff_exists.mp (Finmap.lookup_isSome.mpr hit)
  have hid : e.tx.hash = it := hids it e.core (by rw [coreAt, he]; rfl)
  obtain ⟨s, hs⟩ := ancestorLoop_noLimit pool e.getTxSize e.getTxSize pool.mapTx.keys.card
    (pool.getMemPoolParents e.tx.hash) ∅
  have hfound : pool.linkedAncestors it = s := by
    unfold linkedAncestors allAncestors calculateMemPoolAncestors
    rw [he]
    dsimp only [bind, Except.bind, if_neg]
    simp only [Bool.false_eq_true, if_false]
    rw [hs]
  rw [hfound, ancestorLoop_ok hs, hid]
  exact mem_worklist_parents (hsub it (Finmap.mem_keys.mpr hit)) hsub

lemma parentsOf_sub (tx : CTransaction sha256) : pool.parentsOf tx ⊆ pool.mapTx.keys := by
  intro p hp
  exact Finmap.mem_keys.mpr (mem_filter.mp hp).2

lemma mem_parentsOf {tx : CTransaction sha256} {p : Uint256} :
    p ∈ pool.parentsOf tx ↔ (∃ txin ∈ tx.vin, txin.prevout.hash = p) ∧ p ∈ pool.mapTx := by
  rw [parentsOf, mem_filter, List.mem_toFinset, List.mem_map]

variable (hlinked : Linked pool)
include hlinked

lemma Linked.parents_sub (x : Uint256) : pool.getMemPoolParents x ⊆ pool.mapTx.keys :=
  fun _ hp => (hlinked.dag.sub (hlinked.dag.symm.mp hp)).1

lemma Linked.children_sub (x : Uint256) : pool.getMemPoolChildren x ⊆ pool.mapTx.keys :=
  fun _ hc => (hlinked.dag.sub hc).2

lemma Linked.mem_ancestors {x y : Uint256} (hx : x ∈ pool.mapTx) :
    y ∈ pool.ancestors x ↔ Reaches pool.getMemPoolChildren y x := by
  rw [ancestors, mem_above]
  refine ⟨fun h => h.2, fun h => ⟨?_, h⟩⟩
  obtain rfl | ⟨z, hz, -⟩ := Relation.ReflTransGen.cases_head h
  · exact Finmap.mem_keys.mpr hx
  · exact (hlinked.dag.sub hz).1

lemma Linked.mem_descendants {x y : Uint256} (hx : x ∈ pool.mapTx) :
    y ∈ pool.descendants x ↔ Reaches pool.getMemPoolChildren x y := by
  rw [descendants, mem_below]
  exact ⟨fun h => h.2, fun h => ⟨hlinked.dag.mem_of_reaches (Finmap.mem_keys.mpr hx) h, h⟩⟩

lemma Linked.mem_ancestors_iff {x y : Uint256} (hx : x ∈ pool.mapTx) (hy : y ∈ pool.mapTx) :
    x ∈ pool.ancestors y ↔ y ∈ pool.descendants x := by
  rw [hlinked.mem_ancestors hy, hlinked.mem_descendants hx]

lemma Linked.mem_calculateMemPoolAncestors {limits : ChainLimits} {entry : CTxMemPoolEntry sha256} {s : SetEntries}
    (h : calculateMemPoolAncestors pool limits entry true = .ok s) {y : Uint256} :
    y ∈ s ↔ ∃ p ∈ pool.parentsOf entry.tx, Reaches pool.getMemPoolChildren y p := by
  obtain ⟨parentHashes, hparents, hloop⟩ := bind_eq_ok_iff.mp h
  have hstage := searchParents_ok hparents
  rw [empty_union] at hstage
  have hsub : parentHashes ⊆ pool.mapTx.keys := by
    rw [hstage]
    exact parentsOf_sub entry.tx
  rw [ancestorLoop_ok hloop, mem_worklist_parents hsub (fun x _ => hlinked.parents_sub x), hstage]
  simp only [hlinked.dag.reaches_parents]
  rfl

lemma Linked.mem_calculateDescendants {it : Uint256} (hit : it ∈ pool.mapTx) {setDescendants : SetEntries}
    (hclosed : ∀ x ∈ setDescendants, pool.getMemPoolChildren x ⊆ setDescendants) {y : Uint256} :
    y ∈ pool.calculateDescendants it setDescendants ↔
      y ∈ setDescendants ∨ Reaches pool.getMemPoolChildren it y := by
  have hnext : ∀ x ∈ pool.mapTx.keys, pool.getMemPoolChildren x ⊆ pool.mapTx.keys :=
    fun x _ => hlinked.children_sub x
  have hfuel : (pool.mapTx.keys \ setDescendants).card ≤ pool.mapTx.keys.card :=
    card_le_card sdiff_subset
  have hclosed' : ∀ stage, ∀ x ∈ setDescendants, pool.getMemPoolChildren x ⊆ setDescendants ∪ stage :=
    fun stage x hx => (hclosed x hx).trans subset_union_left
  unfold calculateDescendants
  split_ifs with hmem
  · rw [mem_worklist_iff SetEntries.takes_first
      ⟨empty_subset _, hnext, disjoint_empty_left _, hclosed' ∅⟩ hfuel]
    have hreach : Reaches pool.getMemPoolChildren it y → y ∈ setDescendants := by
      intro hreach
      induction hreach with
      | refl => exact hmem
      | tail _ hstep ih => exact hclosed _ ih hstep
    simpa using hreach
  · rw [mem_worklist_iff SetEntries.takes_first
      ⟨singleton_subset_iff.mpr (Finmap.mem_keys.mpr hit), hnext,
        disjoint_singleton_left.mpr hmem, hclosed' _⟩ hfuel]
    simp

lemma Linked.calculateDescendants_eq {it : Uint256} (hit : it ∈ pool.mapTx) :
    pool.calculateDescendants it ∅ = pool.descendants it := by
  ext y
  rw [hlinked.mem_calculateDescendants hit (fun x hx => absurd hx (notMem_empty x)),
    hlinked.mem_descendants hit]
  simp

lemma Linked.mem_descendantsOf {s : SetEntries} (hs : s ⊆ pool.mapTx.keys) {y : Uint256} :
    y ∈ pool.descendantsOf s ↔ ∃ x ∈ s, Reaches pool.getMemPoolChildren x y := by
  have hfold : ∀ (l : List Uint256) (acc : SetEntries), (∀ x ∈ l, x ∈ pool.mapTx) →
      (∀ x ∈ acc, pool.getMemPoolChildren x ⊆ acc) →
      ∀ y, y ∈ l.foldl (fun setDescendants it => pool.calculateDescendants it setDescendants) acc ↔
        y ∈ acc ∨ ∃ x ∈ l, Reaches pool.getMemPoolChildren x y := by
    intro l
    induction l with
    | nil => simp
    | cons it l ih =>
      intro acc hl hacc y
      have hit := hl it List.mem_cons_self
      rw [List.foldl_cons, ih _ (fun x hx => hl x (List.mem_cons_of_mem _ hx)) ?_,
        hlinked.mem_calculateDescendants hit hacc]
      · simp [or_assoc]
      · intro x hx z hz
        rw [hlinked.mem_calculateDescendants hit hacc] at hx ⊢
        exact hx.imp (fun h => hacc x h hz) (fun h => Relation.ReflTransGen.tail h hz)
  unfold descendantsOf
  rw [hfold s.inOrder ∅ (fun x hx => Finmap.mem_keys.mp (hs (SetEntries.mem_inOrder.mp hx)))
    (fun x hx => absurd hx (notMem_empty x))]
  simp [SetEntries.mem_inOrder]

lemma Linked.linkedAncestors_eq {it : Uint256} (hit : it ∈ pool.mapTx) :
    pool.linkedAncestors it = (pool.ancestors it).erase it := by
  ext y
  rw [mem_linkedAncestors hlinked.ids (fun x _ => hlinked.parents_sub x) hit, hlinked.dag.exists_parent_iff,
    mem_erase, hlinked.mem_ancestors hit]

end Traversals

end CTxMemPool

end MutableBitcoin
