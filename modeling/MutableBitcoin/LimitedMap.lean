import MutableBitcoin.Lib.OrderedContainers
import MutableBitcoin.Lib.ExceptOk
import Mathlib.Data.Finmap

/-!
# Limited maps

`limitedmap.h`. The map has a reverse index from values to entries, from which the entry with the lowest value is
taken when the map is too large.
-/

namespace MutableBitcoin
open Lib Finmap

/-- A map with the index of its values. -/
structure LimitedMap (K V : Type) where
  map : Finmap (fun _ : K => V)
  rmap : List (V × K)
  nMaxSize : ℕ

/-- Where a call ends the process. -/
inductive LimitedMapFailure
  | assertion
  /-- `rmap.begin()` of an empty `rmap`. -/
  | noElement

namespace LimitedMap

variable {K V : Type} [DecidableEq K] [LinearOrder V]

def new (nMaxSizeIn : ℕ) : Except LimitedMapFailure (LimitedMap K V) :=
  if nMaxSizeIn = 0 then .error .assertion else .ok ⟨∅, [], nMaxSizeIn⟩

def size (m : LimitedMap K V) : ℕ := m.map.keys.card

/-- `limitedmap::insert`. -/
def insert (m : LimitedMap K V) (k : K) (v : V) : Except LimitedMapFailure (LimitedMap K V) :=
  if k ∈ m.map then .ok m
  else
    let map := m.map.insert k v
    if m.nMaxSize < map.keys.card then
      match m.rmap with
      | [] => .error .noElement
      | first :: rest =>
        .ok { m with map := map.erase first.2, rmap := multimapInsert Prod.fst (v, k) rest }
    else .ok { m with map := map, rmap := multimapInsert Prod.fst (v, k) m.rmap }

/-- The search for the iterator `k` among the elements with the value of its entry. -/
def eraseIndex (rmap : List (V × K)) (v : V) (k : K) : Except LimitedMapFailure (List (V × K)) :=
  if (v, k) ∈ rmap then .ok (rmap.erase (v, k))
  else .error .assertion -- Shouldn't ever get here

def erase (m : LimitedMap K V) (k : K) : Except LimitedMapFailure (LimitedMap K V) :=
  match m.map.lookup k with
  | none => .ok m
  | some v => do .ok { m with rmap := ← eraseIndex m.rmap v k, map := m.map.erase k }

def update (m : LimitedMap K V) (itIn : K) (v : V) : Except LimitedMapFailure (LimitedMap K V) :=
  match m.map.lookup itIn with
  | none => .ok m
  | some old => do
    let rmap ← eraseIndex m.rmap old itIn
    .ok { m with map := m.map.insert itIn v, rmap := multimapInsert Prod.fst (v, itIn) rmap }

/-- The loop of `max_size`. -/
def shrink (s : ℕ) : Finmap (fun _ : K => V) → List (V × K) →
    Except LimitedMapFailure (Finmap (fun _ : K => V) × List (V × K))
  | map, [] => if s < map.keys.card then .error .noElement else .ok (map, [])
  | map, first :: rest =>
    if s < map.keys.card then shrink s (map.erase first.2) rest else .ok (map, first :: rest)

def max_size (m : LimitedMap K V) (s : ℕ) : Except LimitedMapFailure (LimitedMap K V) :=
  if s = 0 then .error .assertion
  else do
    let (map, rmap) ← shrink s m.map m.rmap
    .ok ⟨map, rmap, s⟩

/-- The calls that change a map. -/
inductive Op (K V : Type)
  | insert (k : K) (v : V)
  | erase (k : K)
  | update (k : K) (v : V)
  | max_size (s : ℕ)

def step (m : LimitedMap K V) : Op K V → Except LimitedMapFailure (LimitedMap K V)
  | .insert k v => m.insert k v
  | .erase k => m.erase k
  | .update k v => m.update k v
  | .max_size s => m.max_size s

def run (m : LimitedMap K V) (ops : List (Op K V)) : Except LimitedMapFailure (LimitedMap K V) :=
  ops.foldlM step m

/-! ### The two indexes -/

/-- The index lists the pairs of the map in order. -/
structure IndexOf (map : Finmap (fun _ : K => V)) (rmap : List (V × K)) : Prop where
  sorted : KeySorted Prod.fst rmap
  nodup : rmap.Nodup
  mem_iff : ∀ v k, (v, k) ∈ rmap ↔ map.lookup k = some v

/-- What was dropped is no greater than what is left. -/
def DropsLowest (map map' : Finmap (fun _ : K => V)) : Prop :=
  ∀ k v k' v', map.lookup k = some v → map'.lookup k = none → map'.lookup k' = some v' → v ≤ v'

section Index
variable {map : Finmap (fun _ : K => V)} {rmap rest : List (V × K)} {k : K} {v : V} {first : V × K}

lemma indexOf_empty : IndexOf (∅ : Finmap (fun _ : K => V)) [] where
  sorted := List.Pairwise.nil
  nodup := List.nodup_nil
  mem_iff v k := by simp

lemma IndexOf.insert (h : IndexOf map rmap) (hk : k ∉ map) :
    IndexOf (map.insert k v) (multimapInsert Prod.fst (v, k) rmap) where
  sorted := h.sorted.insert
  nodup := by
    rw [(multimapInsert_perm _ _ _).nodup_iff, List.nodup_cons, h.mem_iff]
    exact ⟨fun hlookup => hk (mem_of_lookup_eq_some hlookup), h.nodup⟩
  mem_iff v' k' := by
    rw [mem_multimapInsert, h.mem_iff, Prod.mk.injEq]
    by_cases hkk : k' = k
    · rw [hkk, lookup_insert, lookup_eq_none.mpr hk, Option.some.injEq]
      simp [eq_comm]
    · rw [lookup_insert_of_ne _ hkk]
      simp [hkk]

lemma IndexOf.erase (h : IndexOf map rmap) (hk : map.lookup k = some v) :
    IndexOf (map.erase k) (rmap.erase (v, k)) where
  sorted := h.sorted.sublist List.erase_sublist
  nodup := h.nodup.erase _
  mem_iff v' k' := by
    rw [h.nodup.mem_erase_iff, h.mem_iff]
    by_cases hkk : k' = k
    · rw [hkk, lookup_erase, hk, Option.some.injEq]
      simp [eq_comm]
    · rw [lookup_erase_ne hkk]
      simp [hkk]

lemma IndexOf.head (h : IndexOf map (first :: rest)) : map.lookup first.2 = some first.1 ∧
    (∀ k v, map.lookup k = some v → first.1 ≤ v) ∧ IndexOf (map.erase first.2) rest := by
  have hfirst : map.lookup first.2 = some first.1 := (h.mem_iff _ _).mp List.mem_cons_self
  refine ⟨hfirst, fun k v hk => ?_, ?_⟩
  · exact h.sorted.head_le ((h.mem_iff v k).mpr hk)
  · have herase := h.erase hfirst
    rwa [List.erase_cons_head] at herase

lemma IndexOf.card_pos (h : IndexOf map []) : map.keys.card = 0 := by
  rw [Finset.card_eq_zero, Finset.eq_empty_iff_forall_notMem]
  intro k hk
  obtain ⟨v, hv⟩ := Finmap.mem_iff.mp (Finmap.mem_keys.mp hk)
  exact absurd ((h.mem_iff v k).mpr hv) List.not_mem_nil

lemma eraseIndex_eq (h : IndexOf map rmap) (hk : map.lookup k = some v) :
    eraseIndex rmap v k = .ok (rmap.erase (v, k)) :=
  if_pos ((h.mem_iff v k).mpr hk)

lemma shrink_spec (s : ℕ) (h : IndexOf map rmap) :
    ∃ map' rmap', shrink s map rmap = .ok (map', rmap') ∧ IndexOf map' rmap' ∧ map'.keys.card ≤ s ∧
      (∀ k v, map'.lookup k = some v → map.lookup k = some v) ∧ DropsLowest map map' := by
  induction rmap generalizing map with
  | nil =>
    have hcard := h.card_pos
    refine ⟨map, [], ?_, h, by omega, fun _ _ hv => hv, ?_⟩
    · rw [shrink, if_neg (by omega)]
    · intro k v k' v' hk hnone
      rw [hk] at hnone
      cases hnone
  | cons first rest ih =>
    rw [shrink]
    split_ifs with hlarge
    · obtain ⟨hfirst, hlow, hrest⟩ := h.head
      obtain ⟨map', rmap', hshrink, hindex, hcard, hkept, hdrops⟩ := ih hrest
      have hkept' : ∀ k v, map'.lookup k = some v → map.lookup k = some v := by
        intro k v hv
        have herase := hkept k v hv
        by_cases hk : k = first.2
        · rw [hk, lookup_erase] at herase
          cases herase
        · rwa [lookup_erase_ne hk] at herase
      refine ⟨map', rmap', hshrink, hindex, hcard, hkept', fun k v k' v' hk hnone hk' => ?_⟩
      by_cases hkk : k = first.2
      · obtain rfl : first.1 = v := Option.some.inj (hfirst.symm.trans (hkk ▸ hk))
        exact hlow k' v' (hkept' k' v' hk')
      · exact hdrops k v k' v' (by rwa [lookup_erase_ne hkk]) hnone hk'
    · refine ⟨map, first :: rest, rfl, h, not_lt.mp hlarge, fun _ _ hv => hv, fun k v k' v' hk hnone => ?_⟩
      rw [hk] at hnone
      cases hnone

end Index

/-- Map and index agree and keep the bound. -/
structure InStep (m : LimitedMap K V) : Prop where
  index : IndexOf m.map m.rmap
  pos : 0 < m.nMaxSize
  size_le : m.size ≤ m.nMaxSize

def Allowed (m : LimitedMap K V) : Op K V → Prop
  | .update k _ => k ∈ m.map
  | .max_size s => 0 < s
  | _ => True

/-- A call that drops entries drops the lowest. -/
def KeepsHighest (m : LimitedMap K V) (op : Op K V) (m' : LimitedMap K V) : Prop :=
  match op with
  | .insert _ _ | .max_size _ => DropsLowest m.map m'.map
  | _ => True

def InsertsBelow (m : LimitedMap K V) : Op K V → Prop
  | .insert k v => k ∉ m.map ∧ m.size = m.nMaxSize ∧ ∀ k' v', m.map.lookup k' = some v' → v < v'
  | _ => False

section Steps
variable {m : LimitedMap K V} {k : K} {v : V}

omit [LinearOrder V] in
lemma card_insert (hk : k ∉ m.map) : (m.map.insert k v).keys.card = m.size + 1 := by
  have hkeys : (m.map.insert k v).keys = Insert.insert k m.map.keys := by
    ext k'
    rw [mem_keys, mem_insert, Finset.mem_insert, mem_keys]
  rw [hkeys, Finset.card_insert_of_notMem (by rwa [mem_keys])]
  rfl

omit [LinearOrder V] in
lemma card_erase (hk : k ∈ m.map) : (m.map.erase k).keys.card + 1 = m.size := by
  rw [keys_erase]
  exact Finset.card_erase_add_one (mem_keys.mpr hk)

omit [LinearOrder V] in
lemma card_insert_erase (hk : k ∉ m.map) {k' : K} (hk' : k' ∈ m.map) :
    ((m.map.insert k v).erase k').keys.card = m.size := by
  have hcard := card_insert (v := v) hk
  rw [keys_erase, Finset.card_erase_of_mem, hcard, Nat.add_sub_cancel]
  rw [mem_keys, mem_insert]
  exact .inr hk'

lemma dropsLowest_of_kept {map map' : Finmap (fun _ : K => V)}
    (h : ∀ k v, map.lookup k = some v → map'.lookup k ≠ none) : DropsLowest map map' :=
  fun k v _ _ hk hnone => absurd hnone (h k v hk)

lemma insert_spec (h : m.InStep) (k : K) (v : V) :
    ∃ m', m.insert k v = .ok m' ∧ m'.InStep ∧ (DropsLowest m.map m'.map ↔ ¬ m.InsertsBelow (.insert k v)) := by
  by_cases hk : k ∈ m.map
  · refine ⟨m, if_pos hk, h, iff_of_true (dropsLowest_of_kept fun k v hv => ?_) fun hbelow => hbelow.1 hk⟩
    rw [hv]
    exact Option.some_ne_none v
  have hcard := card_insert (v := v) hk
  rw [LimitedMap.insert, if_neg hk]
  dsimp only
  by_cases hfull : m.nMaxSize < (m.map.insert k v).keys.card
  · have hsize : m.size = m.nMaxSize := by
      have hle := h.size_le
      omega
    rw [if_pos hfull]
    cases hrmap : m.rmap with
    | nil =>
      have hindex := h.index
      rw [hrmap] at hindex
      have hzero : m.size = 0 := hindex.card_pos
      have hpos := h.pos
      omega
    | cons first rest =>
      have hindex := h.index
      rw [hrmap] at hindex
      obtain ⟨hfirst, hlow, hrest⟩ := hindex.head
      have hmem := mem_of_lookup_eq_some hfirst
      have hne : first.2 ≠ k := fun heq => hk (heq ▸ hmem)
      have hcomm : (m.map.insert k v).erase first.2 = (m.map.erase first.2).insert k v := by
        refine ext_lookup fun k' => ?_
        by_cases hk' : k' = first.2
        · rw [hk', lookup_erase, lookup_insert_of_ne _ hne, lookup_erase]
        · rw [lookup_erase_ne hk']
          by_cases hkk : k' = k
          · rw [hkk, lookup_insert, lookup_insert]
          · rw [lookup_insert_of_ne _ hkk, lookup_insert_of_ne _ hkk, lookup_erase_ne hk']
      have hnotin : k ∉ m.map.erase first.2 := fun hin => hk (mem_erase.mp hin).2
      refine ⟨_, rfl, ⟨?_, h.pos, ?_⟩, ?_⟩
      · dsimp only
        rw [hcomm]
        exact hrest.insert hnotin
      · have hle := card_insert_erase (v := v) hk hmem
        exact hle.trans_le h.size_le
      · -- The first entry is dropped, and the new one is kept.
        dsimp only
        rw [hcomm]
        constructor
        · rintro hdrops ⟨-, -, hbelow⟩
          refine absurd (hdrops first.2 first.1 k v hfirst ?_ (lookup_insert _))
            (not_le.mpr (hbelow first.2 first.1 hfirst))
          rw [lookup_insert_of_ne _ hne, lookup_erase]
        · intro hnot k₁ v₁ k₂ v₂ hk₁ hnone hk₂
          have hle : first.1 ≤ v := by
            by_contra hlt
            exact hnot ⟨hk, hsize, fun k' v' hk' => (not_le.mp hlt).trans_le (hlow k' v' hk')⟩
          have hdropped : k₁ = first.2 := by
            by_contra hne₁
            have hne₂ : k₁ ≠ k := fun heq => hk (heq ▸ mem_of_lookup_eq_some hk₁)
            rw [lookup_insert_of_ne _ hne₂, lookup_erase_ne hne₁, hk₁] at hnone
            cases hnone
          obtain rfl : first.1 = v₁ := Option.some.inj (hfirst.symm.trans (hdropped ▸ hk₁))
          by_cases hkk : k₂ = k
          · rw [hkk, lookup_insert, Option.some.injEq] at hk₂
            rwa [← hk₂]
          · rw [lookup_insert_of_ne _ hkk] at hk₂
            have hne₂ : k₂ ≠ first.2 := by
              rintro rfl
              rw [lookup_erase] at hk₂
              cases hk₂
            rw [lookup_erase_ne hne₂] at hk₂
            exact hlow k₂ v₂ hk₂
  · rw [if_neg hfull]
    refine ⟨_, rfl, ⟨h.index.insert hk, h.pos, not_lt.mp hfull⟩, iff_of_true ?_ fun hbelow => ?_⟩
    · refine dropsLowest_of_kept fun k' v' hv => ?_
      have hne : k' ≠ k := fun heq => hk (heq ▸ mem_of_lookup_eq_some hv)
      dsimp only
      rw [lookup_insert_of_ne _ hne, hv]
      exact Option.some_ne_none v'
    · have hsize := hbelow.2.1
      omega

lemma erase_spec (h : m.InStep) (k : K) : ∃ m', m.erase k = .ok m' ∧ m'.InStep := by
  rw [LimitedMap.erase]
  cases hk : m.map.lookup k with
  | none => exact ⟨m, rfl, h⟩
  | some v =>
    dsimp only
    rw [eraseIndex_eq h.index hk]
    refine ⟨_, rfl, h.index.erase hk, h.pos, ?_⟩
    have hcard := card_erase (mem_of_lookup_eq_some hk)
    have hle := h.size_le
    rw [size]
    dsimp only
    omega

lemma update_spec (h : m.InStep) (k : K) (v : V) : ∃ m', m.update k v = .ok m' ∧ m'.InStep := by
  rw [LimitedMap.update]
  cases hk : m.map.lookup k with
  | none => exact ⟨m, rfl, h⟩
  | some old =>
    dsimp only
    rw [eraseIndex_eq h.index hk]
    have hmem := mem_of_lookup_eq_some hk
    have hinsert : m.map.insert k v = (m.map.erase k).insert k v := by
      refine ext_lookup fun k' => ?_
      by_cases hkk : k' = k
      · rw [hkk, lookup_insert, lookup_insert]
      · rw [lookup_insert_of_ne _ hkk, lookup_insert_of_ne _ hkk, lookup_erase_ne hkk]
    refine ⟨_, rfl, ?_, h.pos, ?_⟩
    · dsimp only
      rw [hinsert]
      exact (h.index.erase hk).insert notMem_erase_self
    · have hkeys : (m.map.insert k v).keys = m.map.keys := by
        ext k'
        rw [mem_keys, mem_insert, mem_keys]
        exact ⟨fun hor => hor.elim (fun heq => heq ▸ hmem) id, .inr⟩
      rw [size]
      dsimp only
      rw [hkeys]
      exact h.size_le

lemma max_size_spec (h : m.InStep) {s : ℕ} (hs : 0 < s) :
    ∃ m', m.max_size s = .ok m' ∧ m'.InStep ∧ DropsLowest m.map m'.map := by
  obtain ⟨map', rmap', hshrink, hindex, hcard, -, hdrops⟩ := shrink_spec s h.index
  rw [LimitedMap.max_size, if_neg hs.ne', hshrink]
  exact ⟨_, rfl, ⟨hindex, hs, hcard⟩, hdrops⟩

lemma step_spec (h : m.InStep) {op : Op K V} (hop : m.Allowed op) :
    ∃ m', m.step op = .ok m' ∧ m'.InStep ∧ (m.KeepsHighest op m' ↔ ¬ m.InsertsBelow op) := by
  cases op with
  | insert k v => exact insert_spec h k v
  | erase k =>
    obtain ⟨m', hm', hin⟩ := erase_spec h k
    exact ⟨m', hm', hin, iff_of_true trivial id⟩
  | update k v =>
    obtain ⟨m', hm', hin⟩ := update_spec h k v
    exact ⟨m', hm', hin, iff_of_true trivial id⟩
  | max_size s =>
    obtain ⟨m', hm', hin, hdrops⟩ := max_size_spec h hop
    exact ⟨m', hm', hin, iff_of_true hdrops id⟩

end Steps

/-! ### Runs -/

def AllowedRun (m : LimitedMap K V) : List (Op K V) → Prop
  | [] => True
  | op :: ops => m.Allowed op ∧ ∀ m', m.step op = .ok m' → AllowedRun m' ops

lemma run_inStep {m : LimitedMap K V} (h : m.InStep) {pre : List (Op K V)} {op : Op K V} {post : List (Op K V)}
    (hops : m.AllowedRun (pre ++ op :: post)) : ∃ m', m.run pre = .ok m' ∧ m'.InStep ∧ m'.Allowed op := by
  induction pre generalizing m with
  | nil => exact ⟨m, rfl, h, hops.1⟩
  | cons first pre ih =>
    obtain ⟨hfirst, hrest⟩ := hops
    obtain ⟨m₁, hstep, hin, -⟩ := step_spec h hfirst
    obtain ⟨m', hrun, hin', hop⟩ := ih hin (hrest m₁ hstep)
    refine ⟨m', ?_, hin', hop⟩
    rw [run, List.foldlM_cons, hstep]
    exact hrun

/-- In every run the two indexes stay in step, within the maximal size and without a failure. The highest values are
kept in all calls exactly if no call inserts a value into a full map that only has larger ones. -/
theorem run_keepsHighest_iff {N : ℕ} {m₀ : LimitedMap K V} (hnew : new N = .ok m₀) {ops : List (Op K V)}
    (hops : m₀.AllowedRun ops) :
    (∀ pre op post, ops = pre ++ op :: post →
      ∃ m m', m₀.run pre = .ok m ∧ m.step op = .ok m' ∧ IndexOf m'.map m'.rmap ∧ m'.size ≤ m'.nMaxSize) ∧
    ((∀ pre op post m m', ops = pre ++ op :: post → m₀.run pre = .ok m → m.step op = .ok m' →
        m.KeepsHighest op m') ↔
      ∀ pre op post m, ops = pre ++ op :: post → m₀.run pre = .ok m → ¬ m.InsertsBelow op) := by
  have hstart : m₀.InStep := by
    rw [new] at hnew
    split_ifs at hnew with hN
    cases hnew
    exact ⟨indexOf_empty, Nat.pos_of_ne_zero hN, Nat.zero_le N⟩
  have hstep : ∀ pre op post, ops = pre ++ op :: post →
      ∃ m m', m₀.run pre = .ok m ∧ m.step op = .ok m' ∧ m'.InStep ∧ (m.KeepsHighest op m' ↔ ¬ m.InsertsBelow op) := by
    rintro pre op post rfl
    obtain ⟨m, hrun, hin, hop⟩ := run_inStep hstart hops
    obtain ⟨m', hm', hin', hiff⟩ := step_spec hin hop
    exact ⟨m, m', hrun, hm', hin', hiff⟩
  refine ⟨fun pre op post heq => ?_, fun h pre op post m heq hrun => ?_, fun h pre op post m m' heq hrun hm' => ?_⟩
  · obtain ⟨m, m', hrun, hm', hin', -⟩ := hstep pre op post heq
    exact ⟨m, m', hrun, hm', hin'.index, hin'.size_le⟩
  · obtain ⟨m₁, m', hrun₁, hm', -, hiff⟩ := hstep pre op post heq
    cases hrun₁.symm.trans hrun
    exact hiff.mp (h pre op post m m' heq hrun hm')
  · obtain ⟨m₁, m₁', hrun₁, hm₁', -, hiff⟩ := hstep pre op post heq
    cases hrun₁.symm.trans hrun
    cases hm₁'.symm.trans hm'
    exact hiff.mpr (h pre op post m heq hrun)

/-- A full map drops its only value for a smaller one. -/
theorem insert_drops_larger : ∃ m m' : LimitedMap ℤ ℤ, (LimitedMap.mk ∅ [] 1).run [.insert 0 5] = .ok m ∧
    m.step (.insert 1 3) = .ok m' ∧ ¬ m.KeepsHighest (.insert 1 3) m' := by
  refine ⟨_, _, rfl, rfl, fun h => ?_⟩
  have hle := h 0 5 1 3 (by decide) (by decide) (by decide)
  exact absurd hle (by decide)

theorem run_keepsHighest_iff_two : ∃ m m' : LimitedMap ℤ ℤ, (LimitedMap.mk ∅ [] 1).run [.insert 0 3] = .ok m ∧
    m.step (.insert 1 5) = .ok m' ∧ IndexOf m'.map m'.rmap ∧ m'.size ≤ m'.nMaxSize :=
  have hops : (LimitedMap.mk ∅ [] 1 : LimitedMap ℤ ℤ).AllowedRun [.insert 0 3, .insert 1 5] :=
    ⟨trivial, fun _ _ => ⟨trivial, fun _ _ => trivial⟩⟩
  (run_keepsHighest_iff (N := 1) rfl hops).1 [.insert 0 3] (.insert 1 5) [] rfl

end LimitedMap
end MutableBitcoin
