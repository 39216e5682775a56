import Mathlib.Tactic.Common

/-!
# Successful runs in `Except`

Inversion of a successful run: a bind succeeds if both parts do, and a loop succeeds if every
step does.
-/

namespace MutableBitcoin.Lib
open List

variable {ε α β : Type}

lemma bind_eq_ok_iff {x : Except ε α} {f : α → Except ε β} {b : β} :
    (x >>= f) = .ok b ↔ ∃ a, x = .ok a ∧ f a = .ok b := by
  cases x with
  | error e => simp [bind, Except.bind]
  | ok a => simp [bind, Except.bind]

lemma bind_eq_error_iff {x : Except ε α} {f : α → Except ε β} {e : ε} :
    (x >>= f) = .error e ↔ x = .error e ∨ ∃ a, x = .ok a ∧ f a = .error e := by
  cases x with
  | error e' => simp [bind, Except.bind]
  | ok a => simp [bind, Except.bind]

lemma unit_bind_eq_ok_iff {x : Except ε Unit} {f : Unit → Except ε β} {b : β} :
    (x >>= f) = .ok b ↔ x = .ok () ∧ f () = .ok b := by
  cases x with
  | error e => simp [bind, Except.bind]
  | ok a => simp [bind, Except.bind]

lemma exists_ok_of_isOk {x : Except ε α} (h : x.isOk = true) : ∃ a, x = .ok a := by
  cases x with
  | error e => cases h
  | ok a => exact ⟨a, rfl⟩

lemma ok_bind (a : α) (f : α → Except ε β) : (Except.ok a >>= f) = f a := rfl

lemma ite_error_eq_ok_iff {c : Prop} [Decidable c] {e : ε} {x : Except ε α} {a : α} :
    (if c then .error e else x) = .ok a ↔ ¬c ∧ x = .ok a := by
  split_ifs with h
  · simp [h]
  · simp [h]

lemma map_eq_ok_iff {x : Except ε α} {f : α → β} {b : β} :
    x.map f = .ok b ↔ ∃ a, x = .ok a ∧ f a = b := by
  cases x with
  | error e => simp [Except.map]
  | ok a => simp [Except.map]

lemma forM_eq_ok_iff {f : α → Except ε Unit} {l : List α} :
    l.forM f = .ok () ↔ ∀ a ∈ l, f a = .ok () := by
  induction l with
  | nil => simp [pure, Except.pure]
  | cons a l ih =>
    have h : (a :: l).forM f = (f a >>= fun _ => l.forM f) := rfl
    rw [h, bind_eq_ok_iff, forall_mem_cons, ← ih]
    constructor
    · rintro ⟨u, hu, hl⟩
      exact ⟨hu, hl⟩
    · rintro ⟨hu, hl⟩
      exact ⟨(), hu, hl⟩

lemma foldlM_ok {σ τ : Type} {f : σ → τ → Except ε σ} {l : List τ} {I : List τ → σ → Prop} {s : σ}
    (hstep : ∀ pre t post s, pre ++ t :: post = l → I pre s → ∃ s', f s t = .ok s' ∧ I (pre ++ [t]) s')
    (hs : I [] s) : ∃ s', l.foldlM f s = .ok s' ∧ I l s' := by
  have hrun : ∀ post pre s, pre ++ post = l → I pre s → ∃ s', post.foldlM f s = .ok s' ∧ I l s' := by
    intro post
    induction post with
    | nil =>
      intro pre s hl hI
      rw [append_nil] at hl
      exact ⟨s, rfl, hl ▸ hI⟩
    | cons t post ih =>
      intro pre s hl hI
      obtain ⟨s', hs', hI'⟩ := hstep pre t post s hl hI
      rw [foldlM_cons, hs']
      exact ih (pre ++ [t]) s' (by rw [append_assoc, singleton_append, hl]) hI'
  exact hrun l [] s rfl hs

lemma foldlM_congr_of_mem {m : Type → Type} [Monad m] {σ τ : Type} {f g : σ → τ → m σ} {l : List τ}
    (h : ∀ s, ∀ t ∈ l, f s t = g s t) (s : σ) : l.foldlM f s = l.foldlM g s := by
  induction l generalizing s with
  | nil => rfl
  | cons t l ih =>
    rw [foldlM_cons, foldlM_cons, h s t mem_cons_self]
    apply bind_congr
    intro s'
    exact ih (fun s t ht => h s t (mem_cons_of_mem _ ht)) s'

lemma eq_ok_of_toOption {ε α : Type} {x : Except ε α} {a : α} (h : x.toOption = some a) : x = .ok a := by
  cases x with
  | error e => cases h
  | ok b => rw [Option.some.inj h]

/-- A result has `post`, and an error is allowed. -/
def Yields (allowed : ε → Prop) (x : Except ε α) (post : α → Prop) : Prop :=
  match x with
  | .ok a => post a
  | .error e => allowed e

section Yields

variable {allowed : ε → Prop} {x : Except ε α} {post post' : α → Prop}

lemma Yields.mono (h : Yields allowed x post) (himp : ∀ a, post a → post' a) : Yields allowed x post' := by
  cases x with
  | error e => exact h
  | ok a => exact himp a h

lemma Yields.bind {f : α → Except ε β} {post' : β → Prop} (h : Yields allowed x post)
    (hf : ∀ a, post a → Yields allowed (f a) post') : Yields allowed (x >>= f) post' := by
  cases x with
  | error e => exact h
  | ok a => exact hf a h

end Yields

end MutableBitcoin.Lib
