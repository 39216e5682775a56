import Mathlib.Tactic.Common

/-!
# Runs that can stop early

Computations over a state that end in a value or stop with an error, both with the state that
they leave. Two relations between a computation and what it may do are closed under sequencing:
one computation permits every run of another, and a computation with a meter spends at most
a given amount, however it ends.
-/

namespace MutableBitcoin.Lib

variable {ε σ α β τ : Type}

section Runs

variable {x : EStateM ε σ α} {f : α → EStateM ε σ β} {s s' : σ}

lemma run_bind_eq_ok_iff {b : β} :
    (x >>= f) s = .ok b s' ↔ ∃ a t, x s = .ok a t ∧ f a t = .ok b s' := by
  change EStateM.bind x f s = .ok b s' ↔ _
  cases h : x s with
  | ok a t => simp [EStateM.bind, h]
  | error e t => simp [EStateM.bind, h]

lemma run_bind_of_ok {a : α} {t : σ} (h : x s = .ok a t) : (x >>= f) s = f a t := by
  change EStateM.bind x f s = _
  simp [EStateM.bind, h]

lemma run_forM_append {step : τ → EStateM ε σ PUnit} {front behind : List τ}
    (h : (front ++ behind).forM step s = .ok () s') :
    ∃ t, front.forM step s = .ok () t ∧ behind.forM step t = .ok () s' := by
  induction front generalizing s with
  | nil => exact ⟨s, rfl, h⟩
  | cons a front ih =>
    obtain ⟨u, t, hstep, hrest⟩ := run_bind_eq_ok_iff.mp h
    obtain ⟨t', hfront, hbehind⟩ := ih hrest
    exact ⟨t', run_bind_eq_ok_iff.mpr ⟨u, t, hstep, hfront⟩, hbehind⟩

def after : EStateM.Result ε σ α → σ
  | .ok _ s => s
  | .error _ s => s

def stopIf (c : Prop) [Decidable c] (e : ε) : EStateM ε σ Unit :=
  if c then throw e else pure ()

lemma stopIf_eq_ok_iff {c : Prop} [Decidable c] {e : ε} :
    stopIf c e s = .ok () s' ↔ ¬c ∧ s = s' := by
  unfold stopIf
  split_ifs with h
  · constructor
    · intro hthrow
      cases hthrow
    · exact fun hc => absurd h hc.1
  · simp [pure, EStateM.pure, h]

end Runs

section Cost

variable (cost : σ → ℕ) {y : EStateM ε σ α} {f : α → EStateM ε σ β} {s : σ} {k n : ℕ}

lemma cost_after_bind (hy : cost (after (y s)) ≤ cost s + k)
    (hf : ∀ a s', y s = .ok a s' → cost (after (f a s')) ≤ cost s' + n) :
    cost (after ((y >>= f) s)) ≤ cost s + (k + n) := by
  change cost (after (EStateM.bind y f s)) ≤ _
  cases h : y s with
  | ok a s' =>
    have hk : cost s' ≤ cost s + k := by simpa [h, after] using hy
    have hn := hf a s' h
    simp only [EStateM.bind, h]
    omega
  | error e s' =>
    have hk : cost s' ≤ cost s + k := by simpa [h, after] using hy
    simp only [EStateM.bind, h, after]
    omega

lemma cost_after_bind_of_after_eq (hy : after (y s) = s)
    (hf : ∀ a, y s = .ok a s → cost (after (f a s)) ≤ cost s + n) :
    cost (after ((y >>= f) s)) ≤ cost s + n := by
  have hzero : cost (after (y s)) ≤ cost s + 0 := by
    rw [hy]
    exact Nat.le_refl _
  rw [← Nat.zero_add n]
  refine cost_after_bind cost hzero fun a s' h => ?_
  obtain rfl : s' = s := by
    rw [h] at hy
    exact hy
  exact hf a h

end Cost

section Permits

/-- Every run that `x` ends with a value, `y` ends with the same value and state. -/
def Permits (x y : EStateM ε σ α) : Prop :=
  ∀ s a s', x s = .ok a s' → y s = .ok a s'

variable {x y : EStateM ε σ α} {f g : α → EStateM ε σ β}

lemma Permits.refl (x : EStateM ε σ α) : Permits x x := fun _ _ _ h => h

lemma Permits.bind (hxy : Permits x y) (hfg : ∀ a, Permits (f a) (g a)) :
    Permits (x >>= f) (y >>= g) := by
  intro s b s' h
  obtain ⟨a, t, hx, hf⟩ := run_bind_eq_ok_iff.mp h
  exact run_bind_eq_ok_iff.mpr ⟨a, t, hxy s a t hx, hfg a t b s' hf⟩

lemma Permits.rest (x : EStateM ε σ α) (hfg : ∀ a, Permits (f a) (g a)) :
    Permits (x >>= f) (x >>= g) := (Permits.refl x).bind hfg

lemma Permits.ite {c : Prop} [Decidable c] {x' y' : EStateM ε σ α} (hpos : c → Permits x y)
    (hneg : ¬c → Permits x' y') : Permits (if c then x else x') (if c then y else y') := by
  split_ifs with h
  · exact hpos h
  · exact hneg h

lemma Permits.stopIf {c d : Prop} [Decidable c] [Decidable d] {e e' : ε} (h : d → c) :
    Permits (Lib.stopIf c e : EStateM ε σ Unit) (Lib.stopIf d e') := by
  intro s a s' hs
  obtain ⟨hc, heq⟩ := stopIf_eq_ok_iff.mp hs
  exact stopIf_eq_ok_iff.mpr ⟨fun hd => hc (h hd), heq⟩

lemma Permits.forM {step step' : τ → EStateM ε σ Unit} (h : ∀ t, Permits (step t) (step' t))
    (l : List τ) : Permits (l.forM step) (l.forM step') := by
  induction l with
  | nil => exact Permits.refl _
  | cons t l ih => exact (h t).bind fun _ => ih

end Permits

section Triple

/-- From a state that satisfies `pre`, a run ends with a value and a state that satisfy `post`, or stops with
an error and a state that satisfy `stop`. -/
def Triple (pre : σ → Prop) (x : EStateM ε σ α) (post : α → σ → Prop) (stop : ε → σ → Prop) : Prop :=
  ∀ s, pre s → match x s with
    | .ok a s' => post a s'
    | .error e s' => stop e s'

variable {pre pre' : σ → Prop} {x : EStateM ε σ α} {post post' : α → σ → Prop} {stop : ε → σ → Prop}
  {f : α → EStateM ε σ β} {mid : α → σ → Prop} {final : β → σ → Prop}

lemma Triple.bind (hx : Triple pre x mid stop) (hf : ∀ a, Triple (mid a) (f a) final stop) :
    Triple pre (x >>= f) final stop := by
  intro s hs
  have hxs := hx s hs
  change match EStateM.bind x f s with
    | .ok b s' => final b s'
    | .error e s' => stop e s'
  cases h : x s with
  | ok a t =>
    rw [h] at hxs
    simpa only [EStateM.bind, h] using hf a t hxs
  | error e t =>
    rw [h] at hxs
    simpa only [EStateM.bind, h] using hxs

lemma Triple.weaken (h : Triple pre x post stop) (hpost : ∀ a s, post a s → post' a s) : Triple pre x post' stop := by
  intro s hs
  have hxs := h s hs
  cases hx : x s with
  | ok a t =>
    rw [hx] at hxs
    exact hpost a t hxs
  | error e t =>
    rw [hx] at hxs
    exact hxs

lemma Triple.strengthen (h : Triple pre x post stop) (hpre : ∀ s, pre' s → pre s) : Triple pre' x post stop :=
  fun s hs => h s (hpre s hs)

lemma Triple.assume {p : Prop} (h : p → Triple pre x post stop) : Triple (fun s => p ∧ pre s) x post stop :=
  fun s hs => h hs.1 s hs.2

lemma Triple.pure {a : α} (h : ∀ s, pre s → post a s) : Triple pre (Pure.pure a) post stop := h

lemma Triple.modify {g : σ → σ} {after : σ → Prop} (h : ∀ s, pre s → after (g s)) :
    Triple pre (modify g : EStateM ε σ PUnit) (fun _ => after) stop := h

lemma Triple.ite {c : Prop} [Decidable c] {y : EStateM ε σ α} (hpos : c → Triple pre x post stop)
    (hneg : ¬c → Triple pre y post stop) : Triple pre (if c then x else y) post stop := by
  split_ifs with h
  · exact hpos h
  · exact hneg h

lemma Triple.stopIf {c : σ → Prop} [DecidablePred c] {e : ε} (hstop : ∀ s, pre s → c s → stop e s) :
    Triple pre (fun s => Lib.stopIf (c s) e s) (fun _ s => ¬c s ∧ pre s) stop := by
  intro s hs
  unfold Lib.stopIf
  dsimp only
  by_cases hc : c s
  · rw [if_pos hc]
    exact hstop s hs hc
  · rw [if_neg hc]
    exact ⟨hc, hs⟩

lemma Triple.forM {step : τ → EStateM ε σ PUnit} {l : List τ}
    (h : ∀ t ∈ l, Triple pre (step t) (fun _ => pre) stop) : Triple pre (l.forM step) (fun _ => pre) stop := by
  induction l with
  | nil => exact fun s hs => hs
  | cons t l ih => exact (h t List.mem_cons_self).bind fun _ => ih fun u hu => h u (List.mem_cons_of_mem t hu)

end Triple

section Metered

/-- A state with what has been spent. -/
structure Metered (σ : Type) where
  state : σ
  spent : ℕ

def metered (x : EStateM ε σ α) : EStateM ε (Metered σ) α := fun m =>
  match x m.state with
  | .ok a s => .ok a ⟨s, m.spent⟩
  | .error e s => .error e ⟨s, m.spent⟩

def charge : EStateM ε (Metered σ) Unit := fun m => .ok () ⟨m.state, m.spent + 1⟩

variable {x : EStateM ε σ α} {y : EStateM ε (Metered σ) α} {f : α → EStateM ε (Metered σ) β}
  {m m' : Metered σ} {k n : ℕ}

lemma metered_eq_ok_iff {a : α} :
    metered x m = .ok a m' ↔ x m.state = .ok a m'.state ∧ m'.spent = m.spent := by
  obtain ⟨s', n'⟩ := m'
  unfold metered
  cases h : x m.state with
  | ok b s =>
    simp only [EStateM.Result.ok.injEq, Metered.mk.injEq]
    constructor
    · rintro ⟨ha, hs, hn⟩
      exact ⟨⟨ha, hs⟩, hn.symm⟩
    · rintro ⟨⟨ha, hs⟩, hn⟩
      exact ⟨ha, hs, hn.symm⟩
  | error e s => simp

lemma metered_of_ok {a : α} {s : σ} (h : x m.state = .ok a s) : metered x m = .ok a ⟨s, m.spent⟩ :=
  metered_eq_ok_iff.mpr ⟨h, rfl⟩

lemma spent_after_metered : (after (metered x m)).spent = m.spent := by
  unfold metered
  cases x m.state with
  | ok a s => rfl
  | error e s => rfl

lemma Permits.metered {x' : EStateM ε σ α} (h : Permits x x') :
    Permits (metered x) (Lib.metered x') := by
  intro m a m' hm
  obtain ⟨hx, hn⟩ := metered_eq_ok_iff.mp hm
  exact metered_eq_ok_iff.mpr ⟨h _ _ _ hx, hn⟩

lemma spent_after_bind (hy : (after (y m)).spent ≤ m.spent + k)
    (hf : ∀ a m', y m = .ok a m' → (after (f a m')).spent ≤ m'.spent + n) :
    (after ((y >>= f) m)).spent ≤ m.spent + (k + n) := cost_after_bind Metered.spent hy hf

lemma spent_after_metered_bind {g : α → EStateM ε (Metered σ) β}
    (hg : ∀ a s, x m.state = .ok a s → (after (g a ⟨s, m.spent⟩)).spent ≤ m.spent + n) :
    (after ((metered x >>= g) m)).spent ≤ m.spent + n := by
  rw [← Nat.zero_add n]
  refine spent_after_bind (Nat.le_of_eq spent_after_metered) ?_
  rintro a ⟨s, n'⟩ h
  obtain ⟨hx, hn⟩ := metered_eq_ok_iff.mp h
  obtain rfl : n' = m.spent := hn
  exact hg a s hx

lemma Triple.metered {pre : σ → Prop} {post : α → σ → Prop} {stop : ε → σ → Prop} (h : Triple pre x post stop) :
    Triple (fun m : Metered σ => pre m.state) (Lib.metered x) (fun a m => post a m.state)
      (fun e m => stop e m.state) := by
  intro m hm
  have hx := h m.state hm
  unfold Lib.metered
  cases hrun : x m.state with
  | ok a s =>
    rw [hrun] at hx
    exact hx
  | error e s =>
    rw [hrun] at hx
    exact hx

end Metered

end MutableBitcoin.Lib
