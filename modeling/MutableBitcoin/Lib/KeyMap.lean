import Mathlib.Data.List.Basic

/-!
# Maps built by insertion

A map can be built by inserting pairs in order, so that later pairs win, or by keeping the first
pair of every key. Both give the same map once the value of a key is settled.
-/

namespace MutableBitcoin.Lib
open List Function

variable {K V : Type} [DecidableEq K]

def insertAll (m : K → Option V) (kvs : List (K × V)) : K → Option V :=
  kvs.foldl (fun m kv => Function.update m kv.1 (some kv.2)) m

def insertNew (m : K → Option V) (k : K) (v : V) : K → Option V :=
  if (m k).isSome then m else Function.update m k (some v)

section InsertAll

variable {m m' : K → Option V} {k : K}

@[simp] lemma insertAll_nil : insertAll m [] = m := rfl

lemma insertAll_cons (kv : K × V) (kvs : List (K × V)) :
    insertAll m (kv :: kvs) = insertAll (Function.update m kv.1 (some kv.2)) kvs := rfl

lemma insertAll_of_notMem {kvs : List (K × V)} (h : k ∉ kvs.map Prod.fst) : insertAll m kvs k = m k := by
  induction kvs generalizing m with
  | nil => rfl
  | cons kv kvs ih =>
    rw [map_cons, mem_cons, not_or] at h
    rw [insertAll_cons, ih h.2, update_of_ne h.1]

lemma insertAll_congr_of_mem {kvs : List (K × V)} (h : k ∈ kvs.map Prod.fst) :
    insertAll m kvs k = insertAll m' kvs k := by
  induction kvs generalizing m m' with
  | nil => simp at h
  | cons kv kvs ih =>
    rw [insertAll_cons, insertAll_cons]
    by_cases hk : k ∈ kvs.map Prod.fst
    · exact ih hk
    · obtain rfl : k = kv.1 := (mem_cons.mp h).resolve_right hk
      rw [insertAll_of_notMem hk, insertAll_of_notMem hk, update_self, update_self]

lemma isSome_insertAll_of_mem {kvs : List (K × V)} (h : k ∈ kvs.map Prod.fst) :
    (insertAll m kvs k).isSome = true := by
  induction kvs generalizing m with
  | nil => simp at h
  | cons kv kvs ih =>
    rw [insertAll_cons]
    by_cases hk : k ∈ kvs.map Prod.fst
    · exact ih hk
    · obtain rfl : k = kv.1 := (mem_cons.mp h).resolve_right hk
      rw [insertAll_of_notMem hk, update_self]
      rfl

lemma isSome_insertAll_mono {kvs : List (K × V)} (h : (m k).isSome = true) :
    (insertAll m kvs k).isSome = true := by
  by_cases hk : k ∈ kvs.map Prod.fst
  · exact isSome_insertAll_of_mem hk
  · rw [insertAll_of_notMem hk]
    exact h

lemma insertAll_insertAll (kvs : List (K × V)) : insertAll (insertAll m kvs) kvs = insertAll m kvs := by
  funext k
  by_cases hk : k ∈ kvs.map Prod.fst
  · exact insertAll_congr_of_mem hk
  · exact insertAll_of_notMem hk

lemma insertAll_again {m₀ : K → Option V} {kvs kvs' : List (K × V)}
    (h : insertAll m kvs' = insertAll (insertAll m₀ kvs) kvs') :
    insertAll (insertAll m kvs) kvs' = insertAll m kvs' := by
  funext k
  by_cases hk' : k ∈ kvs'.map Prod.fst
  · exact insertAll_congr_of_mem hk'
  · by_cases hk : k ∈ kvs.map Prod.fst
    · rw [h, insertAll_of_notMem hk', insertAll_of_notMem hk']
      exact insertAll_congr_of_mem hk
    · rw [insertAll_of_notMem hk', insertAll_of_notMem hk', insertAll_of_notMem hk]

end InsertAll

section InsertNew

variable {m : K → Option V}

def insertNewAll (f : K → V) (m : K → Option V) (ks : List K) : K → Option V :=
  ks.foldl (fun m k => insertNew m k (f k)) m

lemma insertNew_apply (k k' : K) (v : V) :
    insertNew m k v k' = if k' = k ∧ (m k).isSome = false then some v else m k' := by
  unfold insertNew
  by_cases h : (m k).isSome = true
  · simp [h]
  · rw [if_neg h, update_apply]
    simp [h]

lemma insertNewAll_apply (f : K → V) (ks : List K) (k : K) :
    insertNewAll f m ks k = if k ∈ ks ∧ (m k).isSome = false then some (f k) else m k := by
  induction ks generalizing m with
  | nil => simp [insertNewAll]
  | cons k₀ ks ih =>
    have h := ih (m := insertNew m k₀ (f k₀))
    refine h.trans ?_
    rw [insertNew_apply]
    by_cases hk : k = k₀
    · subst hk
      cases hm : (m k).isSome <;> simp [hm]
    · simp [hk]

lemma insertNewAll_append (f : K → V) (ks ks' : List K) :
    insertNewAll f m (ks ++ ks') = insertNewAll f (insertNewAll f m ks) ks' := foldl_append ..

lemma foldlM_insertNewAll {ι : Type} {M : Type → Type} [Monad M] [LawfulMonad M] (f : K → V)
    {step : (K → Option V) → ι → M (K → Option V)} {keys : ι → List K} {l : List ι}
    (h : ∀ i ∈ l, ∀ m, step m i = pure (insertNewAll f m (keys i))) :
    l.foldlM step m = pure (insertNewAll f m (l.flatMap keys)) := by
  induction l generalizing m with
  | nil => rfl
  | cons i l ih =>
    rw [foldlM_cons, h i mem_cons_self, pure_bind, flatMap_cons, insertNewAll_append]
    exact ih (fun j hj => h j (mem_cons_of_mem _ hj))

lemma insertNewAll_of_present (f : K → V) {ks : List K} (h : ∀ k ∈ ks, (m k).isSome = true) :
    insertNewAll f m ks = m := by
  funext k
  rw [insertNewAll_apply, if_neg]
  rintro ⟨hk, hnone⟩
  rw [h k hk] at hnone
  cases hnone

end InsertNew

end MutableBitcoin.Lib
