import MutableBitcoin.Prevector
import Mathlib.Data.List.Forall2

/-!
# Runs over vectors with inline storage

Any sequence of operations on any number of vectors, next to the same operations on plain lists.
-/

namespace MutableBitcoin
open Lib Function List Option

/-- The operations, on the vectors with the given numbers. -/
inductive PrevectorOp (T : Type) where
  | pushBack (i : ℕ) (value : T)
  | popBack (i : ℕ)
  | insert (i p : ℕ) (value : T)
  | insertN (i p count : ℕ) (value : T)
  | insertRange (i p : ℕ) (values : List T)
  | erase (i p : ℕ)
  | eraseRange (i first last : ℕ)
  | resize (i newSize : ℕ)
  | reserve (i newCapacity : ℕ)
  | shrinkToFit (i : ℕ)
  | assignN (i n : ℕ) (val : T)
  | assignRange (i : ℕ) (values : List T)
  | clear (i : ℕ)
  | swap (i j : ℕ)
  | copy (i j : ℕ)
  | assignFrom (i j : ℕ)

namespace Prevector

variable {T : Type} (N : ℕ) (dflt : T)

/-- One operation on the vectors. `operator=` from the vector itself does nothing. -/
def step (σ : ℕ → Prevector T) : PrevectorOp T → Except PrevectorError (ℕ → Prevector T)
  | .pushBack i value => do
    let v ← pushBack N (σ i) value
    return update σ i v
  | .popBack i => do
    let v ← popBack N (σ i)
    return update σ i v
  | .insert i p value => do
    let v ← insert N (σ i) p value
    return update σ i v
  | .insertN i p count value => do
    let v ← insertN N (σ i) p count value
    return update σ i v
  | .insertRange i p values => do
    let v ← insertRange N (σ i) p values
    return update σ i v
  | .erase i p => do
    let v ← erase N (σ i) p
    return update σ i v
  | .eraseRange i first last => do
    let v ← eraseRange N (σ i) first last
    return update σ i v
  | .resize i newSize => do
    let v ← resize N dflt (σ i) newSize
    return update σ i v
  | .reserve i newCapacity => do
    let v ← reserve N (σ i) newCapacity
    return update σ i v
  | .shrinkToFit i => do
    let v ← shrinkToFit N (σ i)
    return update σ i v
  | .assignN i n val => do
    let v ← assignN N dflt (σ i) n val
    return update σ i v
  | .assignRange i values => do
    let v ← assignRange N dflt (σ i) values
    return update σ i v
  | .clear i => do
    let v ← clear N dflt (σ i)
    return update σ i v
  | .swap i j => return update (update σ i (σ j)) j (σ i)
  | .copy i j => do
    let v ← copy N (σ j)
    return update σ i v
  | .assignFrom i j => do
    if i = j then return σ
    let v ← assignFrom N dflt (σ i) (σ j)
    return update σ i v

def runTrace : List (PrevectorOp T) → (ℕ → Prevector T) → Except PrevectorError (List (ℕ → Prevector T))
  | [], _ => .ok []
  | op :: ops, σ => do
    let σ ← step N dflt σ op
    let rest ← runTrace ops σ
    return σ :: rest

/-- The same operation on lists, where its arguments denote places of the list and a capacity is a
`size_type`. -/
def listStep (ls : ℕ → List T) : PrevectorOp T → Option (ℕ → List T)
  | .pushBack i value => some (update ls i (ls i ++ [value]))
  | .popBack i => if ls i = [] then none else some (update ls i (ls i).dropLast)
  | .insert i p value =>
    if p ≤ (ls i).length then some (update ls i ((ls i).take p ++ [value] ++ (ls i).drop p)) else none
  | .insertN i p count value =>
    if p ≤ (ls i).length then
      some (update ls i ((ls i).take p ++ List.replicate count value ++ (ls i).drop p))
    else none
  | .insertRange i p values =>
    if p ≤ (ls i).length then some (update ls i ((ls i).take p ++ values ++ (ls i).drop p)) else none
  | .erase i p =>
    if p < (ls i).length then some (update ls i ((ls i).take p ++ (ls i).drop (p + 1))) else none
  | .eraseRange i first last =>
    if first ≤ last ∧ last ≤ (ls i).length then
      some (update ls i ((ls i).take first ++ (ls i).drop last))
    else none
  | .resize i newSize =>
    some (update ls i ((ls i).take newSize ++ List.replicate (newSize - (ls i).length) dflt))
  | .reserve _ newCapacity => if newCapacity < 2 ^ 32 then some ls else none
  | .shrinkToFit _ => some ls
  | .assignN i n val => some (update ls i (List.replicate n val))
  | .assignRange i values => some (update ls i values)
  | .clear i => some (update ls i [])
  | .swap i j => some (update (update ls i (ls j)) j (ls i))
  | .copy i j => some (update ls i (ls j))
  | .assignFrom i j => some (update ls i (ls j))

/-- A sequence of operations with the lists after each of them, all shorter than `2³¹ - N`. -/
inductive ListRun : (ℕ → List T) → List (PrevectorOp T) → List (ℕ → List T) → Prop where
  | nil (ls : ℕ → List T) : ListRun ls [] []
  | cons {ls ls' : ℕ → List T} {op : PrevectorOp T} {ops : List (PrevectorOp T)} {trace : List (ℕ → List T)}
      (hstep : listStep dflt ls op = some ls') (hshort : ∀ i, (ls' i).length < 2 ^ 31 - N)
      (hrest : ListRun ls' ops trace) : ListRun ls (op :: ops) (ls' :: trace)

/-- Each vector holds its list. -/
def Agrees (σ : ℕ → Prevector T) (ls : ℕ → List T) : Prop := ∀ i, ∃ c, Holds N (σ i) (ls i) c

variable {N dflt} {σ : ℕ → Prevector T} {ls ls' : ℕ → List T}

lemma Agrees.update (h : Agrees N σ ls) (i : ℕ) {v : Prevector T} {l : List T} {c : ℕ} (hv : Holds N v l c) :
    Agrees N (update σ i v) (update ls i l) := by
  intro k
  by_cases hk : k = i
  · subst hk
    rw [update_self, update_self]
    exact ⟨c, hv⟩
  · rw [update_of_ne hk, update_of_ne hk]
    exact h k

lemma Agrees.bind_update (h : Agrees N σ ls) (i : ℕ) {x : Except PrevectorError (Prevector T)} {l : List T}
    (hx : ∃ v c, x = .ok v ∧ Holds N v l c) :
    ∃ σ', (do let v ← x; return Function.update σ i v) = .ok σ' ∧ Agrees N σ' (Function.update ls i l) := by
  obtain ⟨v, c, rfl, hv⟩ := hx
  exact ⟨_, rfl, h.update i hv⟩

/-- An operation that writes one vector may use that its new list is short. -/
lemma Agrees.write (h : Agrees N σ ls) {i : ℕ} {x : Except PrevectorError (Prevector T)} {l : List T}
    (hls' : ∀ k, (Function.update ls i l k).length + N < 2 ^ 31)
    (hx : l.length + N < 2 ^ 31 → ∃ v c, x = .ok v ∧ Holds N v l c) :
    ∃ σ', (do let v ← x; return Function.update σ i v) = .ok σ' ∧ Agrees N σ' (Function.update ls i l) := by
  have hlength := hls' i
  rw [update_self] at hlength
  exact h.bind_update i (hx hlength)

lemma Agrees.assignFrom (h : Agrees N σ ls) (hls : ∀ i, (ls i).length + N < 2 ^ 31) (i j : ℕ) :
    ∃ σ', step N dflt σ (.assignFrom i j) = .ok σ' ∧ Agrees N σ' (Function.update ls i (ls j)) := by
  obtain ⟨ci, hi⟩ := h i
  obtain ⟨cj, hj⟩ := h j
  by_cases hij : i = j
  · subst hij
    rw [update_eq_self]
    exact ⟨σ, by rw [step, if_pos rfl]; rfl, h⟩
  · have hstep := h.bind_update i (hi.assignFrom dflt (hls i) hj (hls j))
    rw [step, if_neg hij]
    exact hstep

lemma step_refines (h : Agrees N σ ls) (hls : ∀ i, (ls i).length + N < 2 ^ 31) {op : PrevectorOp T}
    (hop : listStep dflt ls op = some ls') (hls' : ∀ i, (ls' i).length + N < 2 ^ 31) :
    ∃ σ', step N dflt σ op = .ok σ' ∧ Agrees N σ' ls' := by
  have hsame : ∀ i, update ls i (ls i) = ls := fun i => update_eq_self i ls
  cases op with
  | pushBack i value =>
    obtain ⟨c, hi⟩ := h i
    cases hop
    refine h.write hls' fun hlength => ?_
    rw [length_append, length_singleton] at hlength
    exact hi.pushBack hlength value
  | popBack i =>
    obtain ⟨c, hi⟩ := h i
    rw [listStep, ite_none_left_eq_some] at hop
    obtain ⟨hne, ⟨⟩⟩ := hop
    exact h.bind_update i (hi.popBack (hls i) hne)
  | insert i p value =>
    obtain ⟨c, hi⟩ := h i
    rw [listStep, ite_none_right_eq_some] at hop
    obtain ⟨hp, ⟨⟩⟩ := hop
    refine h.write hls' fun hlength => hi.insertOne hp ?_ value
    simp only [length_append, length_take, length_drop, length_singleton] at hlength
    omega
  | insertN i p count value =>
    obtain ⟨c, hi⟩ := h i
    rw [listStep, ite_none_right_eq_some] at hop
    obtain ⟨hp, ⟨⟩⟩ := hop
    refine h.write hls' fun hlength => hi.insertN hp ?_ value
    simp only [length_append, length_take, length_drop, length_replicate] at hlength
    omega
  | insertRange i p values =>
    obtain ⟨c, hi⟩ := h i
    rw [listStep, ite_none_right_eq_some] at hop
    obtain ⟨hp, ⟨⟩⟩ := hop
    refine h.write hls' fun hlength => hi.insertRange hp values ?_
    simp only [length_append, length_take, length_drop] at hlength
    omega
  | erase i p =>
    obtain ⟨c, hi⟩ := h i
    rw [listStep, ite_none_right_eq_some] at hop
    obtain ⟨hp, ⟨⟩⟩ := hop
    obtain ⟨v', herase, hv'⟩ := hi.eraseRange (Nat.le_succ p) hp (hls i)
    exact h.bind_update i ⟨v', c, herase, hv'⟩
  | eraseRange i first last =>
    obtain ⟨c, hi⟩ := h i
    rw [listStep, ite_none_right_eq_some] at hop
    obtain ⟨hp, ⟨⟩⟩ := hop
    obtain ⟨v', herase, hv'⟩ := hi.eraseRange hp.1 hp.2 (hls i)
    exact h.bind_update i ⟨v', c, herase, hv'⟩
  | resize i newSize =>
    obtain ⟨c, hi⟩ := h i
    cases hop
    refine h.write hls' fun hlength => hi.resize dflt (hls i) ?_
    simp only [length_append, length_take, length_replicate] at hlength
    omega
  | reserve i newCapacity =>
    obtain ⟨c, hi⟩ := h i
    rw [listStep, ite_none_right_eq_some] at hop
    obtain ⟨hcapacity, ⟨⟩⟩ := hop
    have hstep := h.bind_update i (hi.reserve (hls i) hcapacity)
    rwa [hsame] at hstep
  | shrinkToFit i =>
    obtain ⟨c, hi⟩ := h i
    cases hop
    have hstep := h.bind_update i (hi.shrinkToFit (hls i))
    rwa [hsame] at hstep
  | assignN i n val =>
    obtain ⟨c, hi⟩ := h i
    cases hop
    refine h.write hls' fun hlength => ?_
    rw [length_replicate] at hlength
    exact hi.assignN dflt (hls i) hlength val
  | assignRange i values =>
    obtain ⟨c, hi⟩ := h i
    cases hop
    exact h.write hls' (hi.assignRange dflt (hls i) values)
  | clear i =>
    obtain ⟨c, hi⟩ := h i
    cases hop
    exact h.bind_update i (hi.clear dflt (hls i))
  | swap i j =>
    obtain ⟨ci, hi⟩ := h i
    obtain ⟨cj, hj⟩ := h j
    cases hop
    exact ⟨_, rfl, (h.update i hj).update j hi⟩
  | copy i j =>
    obtain ⟨c, hj⟩ := h j
    cases hop
    exact h.bind_update i (hj.copy (hls j))
  | assignFrom i j =>
    cases hop
    exact h.assignFrom hls i j

/-- What the read functions return of the list. -/
def Shows (N : ℕ) (v : Prevector T) (l : List T) : Prop :=
  contents N v = .ok l ∧ size N v = l.length ∧ ∃ c, capacity N v = .ok c ∧ size N v ≤ c

lemma Holds.shows {v : Prevector T} {l : List T} {c : ℕ} (h : Holds N v l c) : Shows N v l :=
  ⟨h.contents_eq, h.size_eq, c, h.capacity_eq, by rw [h.size_eq]; exact h.le⟩

lemma runTrace_refines {ops : List (PrevectorOp T)} {trace : List (ℕ → List T)} (hrun : ListRun N dflt ls ops trace)
    (h : Agrees N σ ls) (hls : ∀ i, (ls i).length + N < 2 ^ 31) :
    ∃ σs, runTrace N dflt ops σ = .ok σs ∧ List.Forall₂ (fun σ ls => ∀ i, Shows N (σ i) (ls i)) σs trace := by
  induction hrun generalizing σ with
  | nil ls => exact ⟨[], rfl, .nil⟩
  | @cons ls ls' op ops trace hstep hshort _ ih =>
    have hls' : ∀ i, (ls' i).length + N < 2 ^ 31 := fun i => by
      have hlt := hshort i
      omega
    obtain ⟨σ', hσ', h'⟩ := step_refines h hls hstep hls'
    obtain ⟨σs, hσs, hall⟩ := ih h' hls'
    refine ⟨σ' :: σs, by rw [runTrace, hσ', ok_bind, hσs]; rfl, .cons (fun i => ?_) hall⟩
    obtain ⟨c, hc⟩ := h' i
    exact hc.shows

end Prevector

open Prevector

/-- `prevector` refines lists: from empty vectors, after every operation of a sequence whose lists stay
shorter than `2³¹ - N`, the contents and sizes are those of the lists, no size is above its capacity,
and no operation writes outside the storage or wraps. -/
theorem prevector_refines_lists {T : Type} (N : ℕ) (dflt : T) (ops : List (PrevectorOp T))
    (trace : List (ℕ → List T)) (hrun : ListRun N dflt (fun _ => []) ops trace) :
    ∃ σs, runTrace N dflt ops (fun _ => empty N) = .ok σs ∧
      List.Forall₂ (fun σ ls => ∀ i, contents N (σ i) = .ok (ls i) ∧ size N (σ i) = (ls i).length ∧
        ∃ c, capacity N (σ i) = .ok c ∧ size N (σ i) ≤ c) σs trace := by
  by_cases hN : N < 2 ^ 31
  · have hempty : Agrees N (fun _ : ℕ => (empty N : Prevector T)) (fun _ => []) := fun _ =>
      ⟨N, _, view_empty (by omega), rfl, length_replicate⟩
    exact runTrace_refines hrun hempty (fun _ => by rw [length_nil]; omega)
  · cases hrun with
    | nil => exact ⟨[], rfl, .nil⟩
    | cons _ hshort _ => exact absurd (hshort 0) (by omega)

theorem prevector_refines_lists_boundary :
    ∃ σs, runTrace 2 0 [.insertN 0 0 3 7, .popBack 0, .swap 0 1] (fun _ => empty 2) = .ok σs ∧
      List.Forall₂ (fun σ ls => ∀ i, contents 2 (σ i) = .ok (ls i) ∧ size 2 (σ i) = (ls i).length ∧
        ∃ c, capacity 2 (σ i) = .ok c ∧ size 2 (σ i) ≤ c) σs
        [update (fun _ => []) 0 [7, 7, 7],
          update (update (fun _ => []) 0 [7, 7, 7]) 0 [7, 7],
          update (update (update (update (fun _ => []) 0 [7, 7, 7]) 0 [7, 7])
            0 []) 1 [7, 7]] := by
  refine prevector_refines_lists 2 0 [.insertN 0 0 3 7, .popBack 0, .swap 0 1] _ (.cons rfl ?_ (.cons rfl ?_
    (.cons rfl ?_ (.nil _))))
  · intro i
    simp only [update_apply]
    split_ifs <;> decide
  · intro i
    simp only [update_apply]
    split_ifs <;> decide
  · intro i
    simp only [update_apply]
    split_ifs <;> decide

end MutableBitcoin
