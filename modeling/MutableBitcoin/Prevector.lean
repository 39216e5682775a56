import MutableBitcoin.Lib.ExceptOk
import Mathlib.Data.List.Basic
import Mathlib.Tactic.Ring

/-!
# Vectors with inline storage

`prevector<N, T>` of `prevector.h`. The field `_size` says both how many elements there are and which member of the
union holds them.
-/

namespace MutableBitcoin
open Lib List Nat

/-- How a call can fail. -/
inductive PrevectorError where
  | wrap
  | inactiveMember
  | outOfBounds
  | uninitialized
  | fuel
deriving DecidableEq

/-- The union of the inline cells and the allocated ones. -/
inductive DirectOrIndirect (T : Type) where
  | direct (cells : List (Option T))
  | indirect (capacity : ℕ) (cells : List (Option T))

/-- The fields `_size` and `_union`. -/
structure Prevector (T : Type) where
  size_ : ℕ
  union : DirectOrIndirect T

namespace Prevector

variable {T : Type} (N : ℕ)

/-! ### The code -/

section Code

/-- An addition of `size_type`. -/
def add32 (x y : ℕ) : Except PrevectorError ℕ := if x + y < 2 ^ 32 then .ok (x + y) else .error .wrap

/-- A subtraction of `size_type`. -/
def sub32 (x y : ℕ) : Except PrevectorError ℕ := if y ≤ x then .ok (x - y) else .error .wrap

/-- A value that is converted to `difference_type`. -/
def toDiff (x : ℕ) : Except PrevectorError ℕ := if x < 2 ^ 31 then .ok x else .error .wrap

def isDirect (v : Prevector T) : Bool := v.size_ ≤ N

def size (v : Prevector T) : ℕ := if v.isDirect N then v.size_ else v.size_ - N - 1

def capacity (v : Prevector T) : Except PrevectorError ℕ :=
  if v.isDirect N then .ok N
  else match v.union with
    | .direct _ => .error .inactiveMember
    | .indirect capacity _ => .ok capacity

/-- The storage that `item_ptr` points into. -/
def cells (v : Prevector T) : Except PrevectorError (List (Option T)) :=
  match v.isDirect N, v.union with
  | true, .direct cells => .ok cells
  | false, .indirect _ cells => .ok cells
  | _, _ => .error .inactiveMember

def setCells (v : Prevector T) (cells : List (Option T)) : Prevector T :=
  match v.union with
  | .direct _ => { v with union := .direct cells }
  | .indirect capacity _ => { v with union := .indirect capacity cells }

/-- `new(item_ptr(pos)) T(value)`. -/
def store (v : Prevector T) (pos : ℕ) (value : T) : Except PrevectorError (Prevector T) := do
  let pos ← toDiff pos
  let cells ← v.cells N
  if pos < cells.length then .ok (v.setCells (cells.set pos (some value))) else .error .outOfBounds

/-- `memmove(item_ptr(dst), item_ptr(src), n * sizeof(T))`. -/
def moveItems (v : Prevector T) (dst src n : ℕ) : Except PrevectorError (Prevector T) := do
  let dst ← toDiff dst
  let src ← toDiff src
  let cells ← v.cells N
  if dst + n ≤ cells.length ∧ src + n ≤ cells.length then
    .ok (v.setCells (cells.take dst ++ (cells.drop src).take n ++ cells.drop (dst + n)))
  else .error .outOfBounds

def copyCells (cells : List (Option T)) (n newCapacity : ℕ) : Except PrevectorError (List (Option T)) :=
  if n ≤ cells.length ∧ n ≤ newCapacity then .ok (cells.take n ++ List.replicate (newCapacity - n) none)
  else .error .outOfBounds

/-- `realloc` of a storage. -/
def realloc (cells : List (Option T)) (newCapacity : ℕ) : List (Option T) :=
  cells.take newCapacity ++ List.replicate (newCapacity - cells.length) none

/-- `change_capacity`. -/
def changeCapacity (v : Prevector T) (newCapacity : ℕ) : Except PrevectorError (Prevector T) := do
  if newCapacity ≤ N then
    if v.isDirect N then return v
    else
      let indirect ← v.cells N
      let direct ← copyCells indirect (v.size N) N
      let size_ ← sub32 v.size_ (N + 1)
      return ⟨size_, .direct direct⟩
  else
    let old ← v.cells N
    if v.isDirect N then
      let new ← copyCells old (v.size N) newCapacity
      let size_ ← add32 v.size_ (N + 1)
      return ⟨size_, .indirect newCapacity new⟩
    else return { v with union := .indirect newCapacity (realloc old newCapacity) }

/-- `if (capacity() < n) change_capacity(newCapacity)`. -/
def ensure (v : Prevector T) (n newCapacity : ℕ) : Except PrevectorError (Prevector T) := do
  let capacity ← v.capacity N
  if capacity < n then v.changeCapacity N newCapacity else return v

/-- `_size++; new(item_ptr(size() - 1)) T(value)`. -/
def appendItem (v : Prevector T) (value : T) : Except PrevectorError (Prevector T) := do
  let size_ ← add32 v.size_ 1
  let v := { v with size_ := size_ }
  let pos ← sub32 (v.size N) 1
  v.store N pos value

/-- `while (size() < n)`, appending a value, within a number of turns. -/
def fillTo (n : ℕ) (value : T) : ℕ → Prevector T → Except PrevectorError (Prevector T)
  | 0, _ => .error .fuel
  | fuel + 1, v => do
    if v.size N < n then
      let v ← v.appendItem N value
      fillTo n value fuel v
    else return v

/-- `while (first != last)`, appending each element. -/
def appendAll (v : Prevector T) (values : List T) : Except PrevectorError (Prevector T) :=
  values.foldlM (appendItem N) v

def storeAll : ℕ → List T → Prevector T → Except PrevectorError (Prevector T)
  | _, [], v => .ok v
  | p, value :: values, v => do
    let v ← v.store N p value
    storeAll (p + 1) values v

/-- `erase(first, last)` of elements whose destructor does nothing: `memmove` from raw pointers. -/
def eraseRange (v : Prevector T) (first last : ℕ) : Except PrevectorError (Prevector T) := do
  let endp := v.size N
  let count ← sub32 last first
  let size_ ← sub32 v.size_ count
  let n ← sub32 endp last
  moveItems N { v with size_ := size_ } first last n

def erase (v : Prevector T) (pos : ℕ) : Except PrevectorError (Prevector T) := eraseRange N v pos (pos + 1)

/-- `if (size() > new_size) erase(item_ptr(new_size), end())`. -/
def cutTo (v : Prevector T) (newSize : ℕ) : Except PrevectorError (Prevector T) :=
  if newSize < v.size N then eraseRange N v newSize (v.size N) else .ok v

/-- `resize`, where `T()` makes `dflt`. -/
def resize (dflt : T) (v : Prevector T) (newSize : ℕ) : Except PrevectorError (Prevector T) := do
  let v ← cutTo N v newSize
  let v ← ensure N v newSize newSize
  fillTo N newSize dflt (newSize + 1) v

def reserve (v : Prevector T) (newCapacity : ℕ) : Except PrevectorError (Prevector T) :=
  ensure N v newCapacity newCapacity

def shrinkToFit (v : Prevector T) : Except PrevectorError (Prevector T) := changeCapacity N v (v.size N)

def clear (dflt : T) (v : Prevector T) : Except PrevectorError (Prevector T) := resize N dflt v 0

/-- `assign(n, val)`. -/
def assignN (dflt : T) (v : Prevector T) (n : ℕ) (val : T) : Except PrevectorError (Prevector T) := do
  let v ← clear N dflt v
  let v ← ensure N v n n
  fillTo N n val (n + 1) v

/-- `assign(first, last)`. -/
def assignRange (dflt : T) (v : Prevector T) (values : List T) : Except PrevectorError (Prevector T) := do
  let n ← toDiff values.length
  let v ← clear N dflt v
  let v ← ensure N v n n
  appendAll N v values

/-- `if (capacity() < new_size) change_capacity(new_size + (new_size >> 1))`. -/
def grow (v : Prevector T) (newSize : ℕ) : Except PrevectorError (Prevector T) := do
  let newCapacity ← add32 newSize (newSize >>> 1)
  ensure N v newSize newCapacity

/-- What the versions of `insert` share: room for `count` elements at `p`, which `_size` includes. -/
def makeRoom (v : Prevector T) (p count : ℕ) : Except PrevectorError (Prevector T) := do
  let newSize ← add32 (v.size N) count
  let v ← grow N v newSize
  let dst ← add32 p count
  let n ← sub32 (v.size N) p
  let v ← moveItems N v dst p n
  let size_ ← add32 v.size_ count
  return { v with size_ := size_ }

/-- `insert(pos, value)`. -/
def insert (v : Prevector T) (p : ℕ) (value : T) : Except PrevectorError (Prevector T) := do
  let p ← toDiff p
  let v ← makeRoom N v p 1
  v.store N p value

/-- `insert(pos, count, value)`. -/
def insertN (v : Prevector T) (p count : ℕ) (value : T) : Except PrevectorError (Prevector T) := do
  let p ← toDiff p
  let v ← makeRoom N v p count
  storeAll N p (List.replicate count value) v

/-- `insert(pos, first, last)`. -/
def insertRange (v : Prevector T) (p : ℕ) (values : List T) : Except PrevectorError (Prevector T) := do
  let p ← toDiff p
  let count ← toDiff values.length
  let v ← makeRoom N v p count
  storeAll N p values v

def pushBack (v : Prevector T) (value : T) : Except PrevectorError (Prevector T) := do
  let newSize ← add32 (v.size N) 1
  let v ← grow N v newSize
  let v ← v.store N (v.size N) value
  let size_ ← add32 v.size_ 1
  return { v with size_ := size_ }

def popBack (v : Prevector T) : Except PrevectorError (Prevector T) := do
  let first ← sub32 (v.size N) 1
  eraseRange N v first (v.size N)

def contents (v : Prevector T) : Except PrevectorError (List T) := do
  let cells ← v.cells N
  if v.size N ≤ cells.length then
    (cells.take (v.size N)).mapM fun cell => match cell with
      | some value => .ok value
      | none => .error .uninitialized
  else .error .outOfBounds

/-- `prevector()`. -/
def empty : Prevector T := ⟨0, .direct (List.replicate N none)⟩

def copy (other : Prevector T) : Except PrevectorError (Prevector T) := do
  let v ← changeCapacity N (empty N) (other.size N)
  let values ← contents N other
  appendAll N v values

/-- `operator=` from another vector. -/
def assignFrom (dflt : T) (v other : Prevector T) : Except PrevectorError (Prevector T) := do
  let v ← resize N dflt v 0
  let v ← changeCapacity N v (other.size N)
  let values ← contents N other
  appendAll N v values

end Code

/-! ### What a vector holds -/

variable {N}

/-- The cells of a vector of size `n`, inline or allocated. -/
def View (N : ℕ) (v : Prevector T) (n : ℕ) (cells : List (Option T)) : Prop :=
  n ≤ cells.length ∧ cells.length < 2 ^ 32 ∧
    ((v.size_ = n ∧ v.union = .direct cells ∧ cells.length = N) ∨
      (v.size_ = n + N + 1 ∧ v.union = .indirect cells.length cells ∧ N < cells.length))

/-- The vector holds the list `l` and has `c` cells. -/
def Holds (N : ℕ) (v : Prevector T) (l : List T) (c : ℕ) : Prop :=
  ∃ cells, View N v l.length cells ∧ cells.take l.length = l.map some ∧ cells.length = c

section View

variable {v : Prevector T} {n : ℕ} {cells : List (Option T)}

lemma add32_of_lt {x y : ℕ} (h : x + y < 2 ^ 32) : add32 x y = .ok (x + y) := if_pos h

lemma sub32_of_le {x y : ℕ} (h : y ≤ x) : sub32 x y = .ok (x - y) := if_pos h

lemma toDiff_of_lt {x : ℕ} (h : x < 2 ^ 31) : toDiff x = .ok x := if_pos h

lemma View.le (h : View N v n cells) : n ≤ cells.length := h.1

lemma View.isDirect_iff (h : View N v n cells) : v.isDirect N = true ↔ cells.length = N := by
  obtain ⟨hle, -, ⟨hsize, -, hN⟩ | ⟨hsize, -, hN⟩⟩ := h
  · rw [isDirect, decide_eq_true_eq]
    omega
  · rw [isDirect, decide_eq_true_eq]
    omega

lemma View.size_eq (h : View N v n cells) : v.size N = n := by
  have hdirect := h.isDirect_iff
  obtain ⟨hle, -, ⟨hsize, -, hN⟩ | ⟨hsize, -, hN⟩⟩ := h
  · rw [size, if_pos (hdirect.mpr hN), hsize]
  · rw [size, if_neg (fun hd => by have := hdirect.mp hd; omega), hsize]
    omega

lemma View.capacity_eq (h : View N v n cells) : v.capacity N = .ok cells.length := by
  have hdirect := h.isDirect_iff
  obtain ⟨hle, -, ⟨hsize, hunion, hN⟩ | ⟨hsize, hunion, hN⟩⟩ := h
  · rw [capacity, if_pos (hdirect.mpr hN), hN]
  · rw [capacity, if_neg (fun hd => by have := hdirect.mp hd; omega), hunion]

lemma View.cells_eq (h : View N v n cells) : v.cells N = .ok cells := by
  have hdirect := h.isDirect_iff
  obtain ⟨hle, -, ⟨hsize, hunion, hN⟩ | ⟨hsize, hunion, hN⟩⟩ := h
  · rw [Prevector.cells, hdirect.mpr hN, hunion]
  · have hindirect : v.isDirect N = false := by
      rw [Bool.eq_false_iff]
      exact fun hd => by have := hdirect.mp hd; omega
    rw [Prevector.cells, hindirect, hunion]

lemma View.setCells (h : View N v n cells) (cells' : List (Option T)) (hlength : cells'.length = cells.length) :
    View N (v.setCells cells') n cells' := by
  obtain ⟨hle, hlt, ⟨hsize, hunion, hN⟩ | ⟨hsize, hunion, hN⟩⟩ := h
  · refine ⟨by omega, by omega, Or.inl ⟨?_, ?_, by omega⟩⟩
    · rw [Prevector.setCells, hunion]
      exact hsize
    · rw [Prevector.setCells, hunion]
  · refine ⟨by omega, by omega, Or.inr ⟨?_, ?_, by omega⟩⟩
    · rw [Prevector.setCells, hunion]
      exact hsize
    · rw [Prevector.setCells, hunion, hlength]

lemma View.addSize (h : View N v n cells) {k : ℕ} (hle : n + k ≤ cells.length) :
    View N { v with size_ := v.size_ + k } (n + k) cells := by
  obtain ⟨-, hlt, ⟨hsize, hunion, hN⟩ | ⟨hsize, hunion, hN⟩⟩ := h
  · exact ⟨hle, hlt, Or.inl ⟨by dsimp only; omega, hunion, hN⟩⟩
  · exact ⟨hle, hlt, Or.inr ⟨by dsimp only; omega, hunion, hN⟩⟩

lemma View.subSize (h : View N v n cells) {k : ℕ} (hle : k ≤ n) :
    View N { v with size_ := v.size_ - k } (n - k) cells := by
  obtain ⟨hn, hlt, ⟨hsize, hunion, hN⟩ | ⟨hsize, hunion, hN⟩⟩ := h
  · exact ⟨by omega, hlt, Or.inl ⟨by dsimp only; omega, hunion, hN⟩⟩
  · exact ⟨by omega, hlt, Or.inr ⟨by dsimp only; omega, hunion, hN⟩⟩

lemma View.size_lt (h : View N v n cells) (hn : n + N < 2 ^ 31) : v.size_ < 2 ^ 31 + 1 := by
  obtain ⟨-, -, ⟨hsize, -, -⟩ | ⟨hsize, -, -⟩⟩ := h
  · omega
  · omega

lemma View.le_size (h : View N v n cells) : n ≤ v.size_ := by
  obtain ⟨-, -, ⟨hsize, -, -⟩ | ⟨hsize, -, -⟩⟩ := h
  · omega
  · omega

lemma View.store (h : View N v n cells) {p : ℕ} (hp : p < 2 ^ 31) (hlt : p < cells.length) (x : T) :
    v.store N p x = .ok (v.setCells (cells.set p (some x))) := by
  rw [Prevector.store, toDiff_of_lt hp, ok_bind, h.cells_eq, ok_bind, if_pos hlt]

lemma View.moveItems (h : View N v n cells) {dst src k : ℕ} (hdst : dst < 2 ^ 31) (hsrc : src < 2 ^ 31)
    (hd : dst + k ≤ cells.length) (hs : src + k ≤ cells.length) : v.moveItems N dst src k =
      .ok (v.setCells (cells.take dst ++ (cells.drop src).take k ++ cells.drop (dst + k))) := by
  rw [Prevector.moveItems, toDiff_of_lt hdst, ok_bind, toDiff_of_lt hsrc, ok_bind, h.cells_eq, ok_bind,
    if_pos ⟨hd, hs⟩]

lemma view_empty (hN : N < 2 ^ 32) : View N (empty N : Prevector T) 0 (List.replicate N none) := by
  have hlength : (List.replicate N (none : Option T)).length = N := length_replicate
  exact ⟨zero_le _, by omega, Or.inl ⟨rfl, rfl, hlength⟩⟩

end View

/-! ### Capacity -/

section Capacity

variable {v : Prevector T} {n m : ℕ} {cells : List (Option T)} {l : List T} {c : ℕ}

lemma copyCells_of_le (h : n ≤ cells.length) (h' : n ≤ m) :
    copyCells cells n m = .ok (cells.take n ++ List.replicate (m - n) none) := if_pos ⟨h, h'⟩

lemma length_copied (h : n ≤ cells.length) (h' : n ≤ m) :
    (cells.take n ++ List.replicate (m - n) none).length = m := by
  rw [length_append, length_take, length_replicate]
  omega

lemma take_copied (h : n ≤ cells.length) (k : ℕ) :
    (cells.take n ++ List.replicate k none).take n = cells.take n :=
  take_left' (by rw [length_take, min_eq_left h])

lemma length_realloc (cells : List (Option T)) (m : ℕ) : (realloc cells m).length = m := by
  rw [realloc, length_append, length_take, length_replicate]
  omega

lemma take_realloc (h : n ≤ cells.length) (h' : n ≤ m) : (realloc cells m).take n = cells.take n := by
  rw [realloc, take_append_of_le_length (by rw [length_take]; omega), take_take,
    min_eq_left h']

lemma changeCapacity_spec (h : View N v n cells) (hle : n ≤ m) (hlt : m < 2 ^ 32) (hn : n + N < 2 ^ 31) :
    ∃ v' cells', changeCapacity N v m = .ok v' ∧ View N v' n cells' ∧ cells'.take n = cells.take n ∧
      m ≤ cells'.length := by
  have hdirect := h.isDirect_iff
  have hcells_eq := h.cells_eq
  have hsize_eq := h.size_eq
  rw [changeCapacity]
  by_cases hN : m ≤ N
  · rw [if_pos hN]
    by_cases hd : v.isDirect N = true
    · rw [if_pos hd]
      exact ⟨v, cells, rfl, h, rfl, by rw [hdirect.mp hd]; exact hN⟩
    · -- from the heap into the vector
      obtain ⟨hcells, -, ⟨-, -, hlength⟩ | ⟨hsize, -, -⟩⟩ := h
      · exact absurd (hdirect.mpr hlength) hd
      have hlength := length_copied hcells (hle.trans hN)
      rw [if_neg hd, hcells_eq, ok_bind, hsize_eq, copyCells_of_le hcells (hle.trans hN), ok_bind,
        sub32_of_le (by omega), ok_bind]
      refine ⟨_, cells.take n ++ List.replicate (N - n) none, rfl,
        ⟨by omega, by omega, Or.inl ⟨?_, rfl, hlength⟩⟩, take_copied hcells _, by omega⟩
      dsimp only
      omega
  · rw [if_neg hN, hcells_eq, ok_bind]
    by_cases hd : v.isDirect N = true
    · -- from the vector onto the heap
      obtain ⟨hcells, -, ⟨hsize, -, -⟩ | ⟨-, -, hlength⟩⟩ := h
      · have hlength := length_copied hcells hle
        rw [if_pos hd, hsize_eq, copyCells_of_le hcells hle, ok_bind, add32_of_lt (by omega), ok_bind]
        refine ⟨_, cells.take n ++ List.replicate (m - n) none, rfl,
          ⟨by omega, by omega, Or.inr ⟨?_, ?_, by omega⟩⟩, take_copied hcells _, by omega⟩
        · dsimp only
          omega
        · rw [hlength]
      · have hsame := hdirect.mp hd
        omega
    · obtain ⟨hcells, -, ⟨-, -, hlength⟩ | ⟨hsize, -, -⟩⟩ := h
      · exact absurd (hdirect.mpr hlength) hd
      have hlength := length_realloc cells m
      rw [if_neg hd]
      refine ⟨_, _, rfl, ⟨by omega, by omega, Or.inr ⟨hsize, ?_, by omega⟩⟩, take_realloc hcells hle, by omega⟩
      rw [hlength]

lemma ensure_spec (h : View N v n cells) {k : ℕ} (hk : k ≤ m) (hlt : m < 2 ^ 32) (hn : n + N < 2 ^ 31) :
    ∃ v' cells', ensure N v k m = .ok v' ∧ View N v' n cells' ∧ cells'.take n = cells.take n ∧
      k ≤ cells'.length := by
  rw [ensure, h.capacity_eq, ok_bind]
  by_cases hshort : cells.length < k
  · have hle := h.le
    obtain ⟨v', cells', hchange, hview, htake, hroom⟩ := changeCapacity_spec h (m := m) (by omega) hlt hn
    rw [if_pos hshort]
    exact ⟨v', cells', hchange, hview, htake, by omega⟩
  · rw [if_neg hshort]
    exact ⟨v, cells, rfl, h, rfl, by omega⟩

lemma Holds.changeCapacity (h : Holds N v l c) (hle : l.length ≤ m) (hlt : m < 2 ^ 32)
    (hn : l.length + N < 2 ^ 31) : ∃ v' c', changeCapacity N v m = .ok v' ∧ Holds N v' l c' ∧ m ≤ c' := by
  obtain ⟨cells, hview, htake, -⟩ := h
  obtain ⟨v', cells', hchange, hview', htake', hroom⟩ := changeCapacity_spec hview hle hlt hn
  exact ⟨v', cells'.length, hchange, ⟨cells', hview', by rw [htake', htake], rfl⟩, hroom⟩

lemma Holds.ensure (h : Holds N v l c) {k : ℕ} (hk : k ≤ m) (hlt : m < 2 ^ 32) (hn : l.length + N < 2 ^ 31) :
    ∃ v' c', ensure N v k m = .ok v' ∧ Holds N v' l c' ∧ k ≤ c' := by
  obtain ⟨cells, hview, htake, -⟩ := h
  obtain ⟨v', cells', hensure, hview', htake', hroom⟩ := ensure_spec hview hk hlt hn
  exact ⟨v', cells'.length, hensure, ⟨cells', hview', by rw [htake', htake], rfl⟩, hroom⟩

lemma Holds.size_eq (h : Holds N v l c) : v.size N = l.length := by
  obtain ⟨cells, hview, -⟩ := h
  exact hview.size_eq

lemma Holds.capacity_eq (h : Holds N v l c) : v.capacity N = .ok c := by
  obtain ⟨cells, hview, -, rfl⟩ := h
  exact hview.capacity_eq

lemma Holds.le (h : Holds N v l c) : l.length ≤ c := by
  obtain ⟨cells, hview, -, rfl⟩ := h
  exact hview.le

lemma Holds.contents_eq (h : Holds N v l c) : v.contents N = .ok l := by
  obtain ⟨cells, hview, htake, -⟩ := h
  have hmap : ∀ values : List T, (values.map some).mapM (fun cell : Option T => match cell with
      | some value => (Except.ok value : Except PrevectorError T)
      | none => .error .uninitialized) = .ok values := by
    intro values
    induction values with
    | nil => rfl
    | cons value values ih =>
      rw [map_cons, mapM_cons, ok_bind, ih]
      rfl
  rw [contents, hview.cells_eq, ok_bind, hview.size_eq, if_pos hview.le, htake]
  exact hmap l

end Capacity

/-! ### Elements -/

section Elements

variable {v : Prevector T} {l : List T} {c : ℕ}

lemma take_succ_set {α : Type} {xs : List α} {n : ℕ} (h : n < xs.length) (x : α) :
    (xs.set n x).take (n + 1) = xs.take n ++ [x] := by
  have hlength : n < (xs.set n x).length := by rwa [length_set]
  rw [take_succ_eq_append_getElem hlength, getElem_set_self, take_set_of_le (le_refl n)]

lemma Holds.appendItem (h : Holds N v l c) (hroom : l.length < c) (hn : l.length + N < 2 ^ 31) (x : T) :
    ∃ v', appendItem N v x = .ok v' ∧ Holds N v' (l ++ [x]) c := by
  obtain ⟨cells, hview, htake, rfl⟩ := h
  have hnext := hview.addSize (k := 1) hroom
  have hsize := hview.size_lt hn
  rw [Prevector.appendItem, add32_of_lt (by omega), ok_bind]
  dsimp only
  rw [hnext.size_eq, sub32_of_le (by omega), ok_bind, Nat.add_sub_cancel, hnext.store (by omega) hroom]
  refine ⟨_, rfl, cells.set l.length (some x), ?_, ?_, length_set⟩
  · rw [length_append, length_singleton]
    exact hnext.setCells _ length_set
  · rw [length_append, length_singleton, take_succ_set hroom, htake, map_append, map_singleton]

lemma Holds.fillTo (h : Holds N v l c) {n fuel : ℕ} (hle : l.length ≤ n) (hroom : n ≤ c) (hn : n + N < 2 ^ 31)
    (hfuel : n - l.length < fuel) (x : T) :
    ∃ v', fillTo N n x fuel v = .ok v' ∧ Holds N v' (l ++ List.replicate (n - l.length) x) c := by
  induction fuel generalizing v l with
  | zero => omega
  | succ fuel ih =>
    rw [Prevector.fillTo, h.size_eq]
    by_cases hlt : l.length < n
    · obtain ⟨v', happend, h'⟩ := h.appendItem (by omega) (by omega) x
      have hlength : (l ++ [x]).length = l.length + 1 := length_append
      obtain ⟨v'', hfill, h''⟩ := ih h' (by omega) (by omega)
      have hsucc : n - l.length = (n - (l ++ [x]).length) + 1 := by omega
      rw [if_pos hlt, happend, ok_bind, hsucc, replicate_succ]
      rw [append_assoc] at h''
      exact ⟨v'', hfill, h''⟩
    · rw [if_neg hlt, show n - l.length = 0 by omega, replicate_zero, append_nil]
      exact ⟨v, rfl, h⟩

lemma Holds.appendAll (h : Holds N v l c) (values : List T) (hroom : l.length + values.length ≤ c)
    (hn : l.length + values.length + N < 2 ^ 31) :
    ∃ v', appendAll N v values = .ok v' ∧ Holds N v' (l ++ values) c := by
  induction values generalizing v l with
  | nil => exact ⟨v, rfl, by rwa [append_nil]⟩
  | cons x values ih =>
    rw [length_cons] at hroom hn
    obtain ⟨v', happend, h'⟩ := h.appendItem (by omega) (by omega) x
    have hlength : (l ++ [x]).length = l.length + 1 := length_append
    obtain ⟨v'', hall, h''⟩ := ih h' (by omega) (by omega)
    rw [append_assoc] at h''
    rw [Prevector.appendAll, foldlM_cons, happend, ok_bind]
    exact ⟨v'', hall, h''⟩

lemma View.storeAll {n p : ℕ} {cells : List (Option T)} (h : View N v n cells) (values : List T)
    (hp : p + values.length ≤ n) (hn : n < 2 ^ 31) :
    ∃ v', storeAll N p values v = .ok v' ∧
      View N v' n (cells.take p ++ values.map some ++ cells.drop (p + values.length)) := by
  induction values generalizing v p cells with
  | nil =>
    refine ⟨v, rfl, ?_⟩
    rwa [map_nil, append_nil, length_nil, add_zero, take_append_drop]
  | cons x values ih =>
    rw [length_cons] at hp
    have hle := h.le
    obtain ⟨v', hall, h'⟩ := ih (h.setCells (cells.set p (some x)) length_set) (p := p + 1)
      (by omega)
    rw [Prevector.storeAll, h.store (by omega) (by omega), ok_bind]
    refine ⟨v', hall, ?_⟩
    rw [take_succ_set (by omega), drop_set_of_lt (by omega)] at h'
    rw [map_cons, length_cons, add_comm values.length, ← add_assoc]
    simpa only [append_assoc, singleton_append] using h'

lemma Holds.eraseRange (h : Holds N v l c) {first last : ℕ} (hfirst : first ≤ last) (hlast : last ≤ l.length)
    (hn : l.length + N < 2 ^ 31) :
    ∃ v', eraseRange N v first last = .ok v' ∧ Holds N v' (l.take first ++ l.drop last) c := by
  obtain ⟨cells, hview, htake, rfl⟩ := h
  have hle := hview.le
  have hsize := hview.le_size
  have hless := hview.subSize (k := last - first) (by omega)
  have htail : (cells.drop last).take (l.length - last) = (l.drop last).map some := by
    rw [← drop_take, htake, map_drop]
  have hfront : cells.take first = (l.take first).map some := by
    rw [map_take, ← htake, take_take, min_eq_left (by omega)]
  have hlength : (l.take first ++ l.drop last).length = l.length - (last - first) := by
    rw [length_append, length_take, length_drop]
    omega
  have hmoved : (cells.take first ++ (cells.drop last).take (l.length - last) ++
      cells.drop (first + (l.length - last))).length = cells.length := by
    simp only [length_append, length_take, length_drop]
    omega
  rw [Prevector.eraseRange, hview.size_eq, sub32_of_le hfirst, ok_bind, sub32_of_le (by omega), ok_bind,
    sub32_of_le hlast, ok_bind, hless.moveItems (by omega) (by omega) (by omega) (by omega)]
  refine ⟨_, rfl, _, ?_, ?_, hmoved⟩
  · rw [hlength]
    exact hless.setCells _ hmoved
  · rw [hfront, htail, ← map_append, take_left' (by rw [length_map])]

lemma Holds.makeRoom (h : Holds N v l c) {p count : ℕ} (hp : p ≤ l.length)
    (hn : l.length + count + N < 2 ^ 31) :
    ∃ v' cells', makeRoom N v p count = .ok v' ∧ View N v' (l.length + count) cells' ∧
      cells'.take p = (l.take p).map some ∧
      (cells'.drop (p + count)).take (l.length - p) = (l.drop p).map some := by
  obtain ⟨cells, hview, htake, rfl⟩ := h
  have hhalf : (l.length + count) >>> 1 ≤ l.length + count := by
    rw [shiftRight_eq_div_pow]
    exact div_le_self _ _
  have hgrown : (l.length + count) + (l.length + count) >>> 1 < 2 ^ 32 := by
    rw [shiftRight_eq_div_pow]
    omega
  obtain ⟨v₁, cells₁, hgrow, hview₁, htake₁, hroom⟩ := ensure_spec hview
    (le_add_right (l.length + count) ((l.length + count) >>> 1)) hgrown (by omega)
  have hsize := (hview₁.size_lt (by omega))
  have hmoved : (cells₁.take (p + count) ++ (cells₁.drop p).take (l.length - p) ++
      cells₁.drop (p + count + (l.length - p))).length = cells₁.length := by
    simp only [length_append, length_take, length_drop]
    omega
  have hlength : (cells₁.take (p + count)).length = p + count := by
    rw [length_take]
    omega
  have hmid : ((cells₁.drop p).take (l.length - p)).length = l.length - p := by
    rw [length_take, length_drop]
    omega
  have hview₂ := (hview₁.setCells _ hmoved).addSize (k := count) (by omega)
  rw [Prevector.makeRoom, hview.size_eq, add32_of_lt (by omega), ok_bind, grow, add32_of_lt hgrown, ok_bind, hgrow,
    ok_bind, add32_of_lt (by omega), ok_bind, hview₁.size_eq, sub32_of_le hp, ok_bind,
    hview₁.moveItems (by omega) (by omega) (by omega) (by omega), ok_bind]
  have hmark : ∀ cells', (v₁.setCells cells').size_ = v₁.size_ := by
    intro cells'
    unfold setCells
    split <;> rfl
  rw [add32_of_lt (by rw [hmark]; omega), ok_bind]
  refine ⟨_, _, rfl, hview₂, ?_, ?_⟩
  · rw [append_assoc, take_append_of_le_length (by omega), take_take, min_eq_left (by omega),
      map_take, ← htake, ← htake₁, take_take, min_eq_left hp]
  · rw [append_assoc, drop_left' hlength, take_left' hmid, ← drop_take, htake₁, htake,
      map_drop]

lemma Holds.insert (h : Holds N v l c) {p : ℕ} (values : List T) (hp : p ≤ l.length)
    (hn : l.length + values.length + N < 2 ^ 31) :
    ∃ v₁ v' c', Prevector.makeRoom N v p values.length = .ok v₁ ∧
      Prevector.storeAll N p values v₁ = .ok v' ∧
      Holds N v' (l.take p ++ values ++ l.drop p) c' := by
  obtain ⟨v₁, cells, hroom, hview, hfront, htail⟩ := h.makeRoom (p := p) hp hn
  obtain ⟨v', hall, hview'⟩ := hview.storeAll values (p := p) (by omega) (by omega)
  have hlength : (l.take p ++ values ++ l.drop p).length = l.length + values.length := by
    simp only [length_append, length_take, length_drop]
    omega
  refine ⟨v₁, v', _, hroom, hall, _, by rwa [hlength], ?_, rfl⟩
  have hstored : (cells.take p ++ values.map some).length = p + values.length := by
    rw [hfront, length_append, length_map, length_map, length_take, min_eq_left hp]
  rw [hlength, show l.length + values.length = (p + values.length) + (l.length - p) by omega, take_add,
    take_left' hstored, drop_left' hstored, htail, hfront, map_append, map_append]

end Elements

/-! ### The operations -/

section Operations

variable {v other : Prevector T} {l l' : List T} {c c' : ℕ} (dflt : T)

lemma Holds.resize (h : Holds N v l c) (hl : l.length + N < 2 ^ 31) {n : ℕ} (hn : n + N < 2 ^ 31) :
    ∃ v' c', resize N dflt v n = .ok v' ∧ Holds N v' (l.take n ++ List.replicate (n - l.length) dflt) c' := by
  have hcut : ∃ v₁, cutTo N v n = .ok v₁ ∧ Holds N v₁ (l.take n) c := by
    rw [cutTo, h.size_eq]
    by_cases hlt : n < l.length
    · obtain ⟨v₁, herase, h₁⟩ := h.eraseRange hlt.le le_rfl hl
      rw [drop_length, append_nil] at h₁
      rw [if_pos hlt]
      exact ⟨v₁, herase, h₁⟩
    · rw [if_neg hlt, take_of_length_le (by omega)]
      exact ⟨v, rfl, h⟩
  obtain ⟨v₁, hcut, h₁⟩ := hcut
  have hlength : (l.take n).length = min n l.length := length_take
  obtain ⟨v₂, c₂, hensure, h₂, hroom⟩ := h₁.ensure le_rfl (show n < 2 ^ 32 by omega) (by omega)
  obtain ⟨v₃, hfill, h₃⟩ := @Holds.fillTo T N v₂ _ c₂ h₂ n (n + 1) (by omega) hroom hn (by omega) dflt
  have hrest : n - (l.take n).length = n - l.length := by omega
  rw [hrest] at h₃
  refine ⟨v₃, c₂, ?_, h₃⟩
  rw [Prevector.resize, hcut, ok_bind, hensure, ok_bind, hfill]

lemma Holds.clear (h : Holds N v l c) (hl : l.length + N < 2 ^ 31) :
    ∃ v' c', clear N dflt v = .ok v' ∧ Holds N v' [] c' := by
  obtain ⟨v', c', hresize, h'⟩ := h.resize dflt hl (n := 0) (by omega)
  rw [take_zero, Nat.zero_sub, replicate_zero, append_nil] at h'
  exact ⟨v', c', hresize, h'⟩

lemma Holds.reserve (h : Holds N v l c) (hl : l.length + N < 2 ^ 31) {n : ℕ} (hn : n < 2 ^ 32) :
    ∃ v' c', reserve N v n = .ok v' ∧ Holds N v' l c' := by
  obtain ⟨v', c', hensure, h', -⟩ := h.ensure le_rfl hn hl
  exact ⟨v', c', hensure, h'⟩

lemma Holds.shrinkToFit (h : Holds N v l c) (hl : l.length + N < 2 ^ 31) :
    ∃ v' c', shrinkToFit N v = .ok v' ∧ Holds N v' l c' := by
  obtain ⟨v', c', hchange, h', -⟩ := h.changeCapacity le_rfl (by omega) hl
  refine ⟨v', c', ?_, h'⟩
  rw [Prevector.shrinkToFit, h.size_eq, hchange]

lemma Holds.assignN (h : Holds N v l c) (hl : l.length + N < 2 ^ 31) {n : ℕ} (hn : n + N < 2 ^ 31) (x : T) :
    ∃ v' c', assignN N dflt v n x = .ok v' ∧ Holds N v' (List.replicate n x) c' := by
  obtain ⟨v₁, c₁, hclear, h₁⟩ := h.clear dflt hl
  obtain ⟨v₂, c₂, hensure, h₂, hroom⟩ := h₁.ensure le_rfl (show n < 2 ^ 32 by omega)
    (by rw [length_nil]; omega)
  obtain ⟨v₃, hfill, h₃⟩ := @Holds.fillTo T N v₂ _ c₂ h₂ n (n + 1) (zero_le n) hroom hn
    (by rw [length_nil]; omega) x
  rw [Prevector.assignN, hclear, ok_bind, hensure, ok_bind]
  exact ⟨v₃, c₂, hfill, h₃⟩

lemma Holds.assignRange (h : Holds N v l c) (hl : l.length + N < 2 ^ 31) (values : List T)
    (hn : values.length + N < 2 ^ 31) :
    ∃ v' c', assignRange N dflt v values = .ok v' ∧ Holds N v' values c' := by
  obtain ⟨v₁, c₁, hclear, h₁⟩ := h.clear dflt hl
  obtain ⟨v₂, c₂, hensure, h₂, hroom⟩ := h₁.ensure le_rfl (show values.length < 2 ^ 32 by omega)
    (by rw [length_nil]; omega)
  obtain ⟨v₃, hall, h₃⟩ := h₂.appendAll values (by rw [length_nil]; omega)
    (by rw [length_nil]; omega)
  rw [Prevector.assignRange, toDiff_of_lt (by omega), ok_bind, hclear, ok_bind, hensure, ok_bind]
  exact ⟨v₃, c₂, hall, h₃⟩

lemma Holds.insertOne (h : Holds N v l c) {p : ℕ} (hp : p ≤ l.length) (hn : l.length + 1 + N < 2 ^ 31) (x : T) :
    ∃ v' c', Prevector.insert N v p x = .ok v' ∧ Holds N v' (l.take p ++ [x] ++ l.drop p) c' := by
  obtain ⟨v₁, v', c', hroom, hall, h'⟩ := h.insert [x] hp hn
  rw [Prevector.insert, toDiff_of_lt (by omega), ok_bind]
  refine ⟨v', c', ?_, h'⟩
  rw [show Prevector.makeRoom N v p 1 = .ok v₁ from hroom, ok_bind]
  obtain ⟨v₂, hstore, hv₂⟩ := bind_eq_ok_iff.mp hall
  rw [hstore]
  exact hv₂

lemma Holds.insertN (h : Holds N v l c) {p n : ℕ} (hp : p ≤ l.length) (hn : l.length + n + N < 2 ^ 31) (x : T) :
    ∃ v' c', insertN N v p n x = .ok v' ∧ Holds N v' (l.take p ++ List.replicate n x ++ l.drop p) c' := by
  have hlength : (List.replicate n x).length = n := length_replicate
  obtain ⟨v₁, v', c', hroom, hall, h'⟩ := h.insert (List.replicate n x) hp (by rw [hlength]; exact hn)
  rw [hlength] at hroom
  rw [Prevector.insertN, toDiff_of_lt (by omega), ok_bind, hroom, ok_bind]
  exact ⟨v', c', hall, h'⟩

lemma Holds.insertRange (h : Holds N v l c) {p : ℕ} (hp : p ≤ l.length) (values : List T)
    (hn : l.length + values.length + N < 2 ^ 31) :
    ∃ v' c', insertRange N v p values = .ok v' ∧ Holds N v' (l.take p ++ values ++ l.drop p) c' := by
  obtain ⟨v₁, v', c', hroom, hall, h'⟩ := h.insert values hp hn
  rw [Prevector.insertRange, toDiff_of_lt (by omega), ok_bind, toDiff_of_lt (by omega), ok_bind, hroom, ok_bind]
  exact ⟨v', c', hall, h'⟩

lemma Holds.pushBack (h : Holds N v l c) (hn : l.length + 1 + N < 2 ^ 31) (x : T) :
    ∃ v' c', pushBack N v x = .ok v' ∧ Holds N v' (l ++ [x]) c' := by
  obtain ⟨cells, hview, htake, rfl⟩ := h
  have hgrown : (l.length + 1) + (l.length + 1) >>> 1 < 2 ^ 32 := by
    rw [shiftRight_eq_div_pow]
    omega
  obtain ⟨v₁, cells₁, hgrow, hview₁, htake₁, hroom⟩ := ensure_spec hview
    (le_add_right (l.length + 1) ((l.length + 1) >>> 1)) hgrown (by omega)
  have hsize := hview₁.size_lt (by omega)
  have hview₂ := (hview₁.setCells (cells₁.set l.length (some x)) length_set).addSize (k := 1)
    (by rw [length_set]; omega)
  have hmark : ∀ cells', (v₁.setCells cells').size_ = v₁.size_ := by
    intro cells'
    unfold setCells
    split <;> rfl
  rw [Prevector.pushBack, hview.size_eq, add32_of_lt (by omega), ok_bind, grow, add32_of_lt hgrown, ok_bind, hgrow,
    ok_bind, hview₁.size_eq, hview₁.store (by omega) (by omega), ok_bind, add32_of_lt (by rw [hmark]; omega), ok_bind]
  refine ⟨_, _, rfl, cells₁.set l.length (some x), ?_, ?_, rfl⟩
  · rw [length_append, length_singleton]
    exact hview₂
  · rw [length_append, length_singleton, take_succ_set (by omega), htake₁, htake, map_append,
      map_singleton]

lemma Holds.popBack (h : Holds N v l c) (hl : l.length + N < 2 ^ 31) (hne : l ≠ []) :
    ∃ v' c', popBack N v = .ok v' ∧ Holds N v' l.dropLast c' := by
  have hpos := length_pos_of_ne_nil hne
  obtain ⟨v', herase, h'⟩ := h.eraseRange (sub_le l.length 1) le_rfl hl
  rw [drop_length, append_nil, ← dropLast_eq_take] at h'
  rw [Prevector.popBack, h.size_eq, sub32_of_le hpos, ok_bind]
  exact ⟨v', c, herase, h'⟩

lemma Holds.copy (h : Holds N other l c) (hl : l.length + N < 2 ^ 31) :
    ∃ v' c', copy N other = .ok v' ∧ Holds N v' l c' := by
  have hempty : Holds N (empty N : Prevector T) [] N :=
    ⟨_, view_empty (by omega), rfl, length_replicate⟩
  obtain ⟨v₁, c₁, hchange, h₁, hroom⟩ := hempty.changeCapacity (zero_le l.length) (by omega)
    (by rw [length_nil]; omega)
  obtain ⟨v₂, hall, h₂⟩ := h₁.appendAll l (by rw [length_nil]; omega) (by rw [length_nil]; omega)
  rw [Prevector.copy, h.size_eq, hchange, ok_bind, h.contents_eq, ok_bind]
  exact ⟨v₂, c₁, hall, h₂⟩

lemma Holds.assignFrom (h : Holds N v l c) (hl : l.length + N < 2 ^ 31) (h' : Holds N other l' c')
    (hl' : l'.length + N < 2 ^ 31) :
    ∃ v' c', assignFrom N dflt v other = .ok v' ∧ Holds N v' l' c' := by
  obtain ⟨v₁, c₁, hclear, h₁⟩ := h.clear dflt hl
  obtain ⟨v₂, c₂, hchange, h₂, hroom⟩ := h₁.changeCapacity (zero_le l'.length) (by omega)
    (by rw [length_nil]; omega)
  obtain ⟨v₃, hall, h₃⟩ := h₂.appendAll l' (by rw [length_nil]; omega) (by rw [length_nil]; omega)
  rw [Prevector.assignFrom, show Prevector.resize N dflt v 0 = .ok v₁ from hclear, ok_bind, h'.size_eq, hchange,
    ok_bind, h'.contents_eq, ok_bind]
  exact ⟨v₃, c₂, hall, h₃⟩

end Operations

end Prevector

end MutableBitcoin
