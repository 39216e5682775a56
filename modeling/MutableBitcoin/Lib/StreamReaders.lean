import Mathlib.Data.List.Basic

/-!
# Machines that are fed a stream

A machine takes one symbol at a time, gives outputs, and may reject. What it makes of a stream does not depend on
where the stream is cut.
-/

namespace MutableBitcoin.Lib

variable {S B M : Type}

def feed (step : S → B → Option (S × List M)) : S → List B → List M × Option S
  | s, [] => ([], some s)
  | s, b :: bs =>
    match step s b with
    | none => ([], none)
    | some (s', out) => (out ++ (feed step s' bs).1, (feed step s' bs).2)

variable {step : S → B → Option (S × List M)} {s s' : S} {bs cs : List B} {out : List M}

@[simp] lemma feed_nil : feed step s [] = ([], some s) := rfl

lemma feed_cons_none {b : B} (h : step s b = none) : feed step s (b :: bs) = ([], none) := by
  rw [feed, h]

lemma feed_cons_some {b : B} (h : step s b = some (s', out)) :
    feed step s (b :: bs) = (out ++ (feed step s' bs).1, (feed step s' bs).2) := by
  rw [feed, h]

lemma feed_append_some (h : feed step s bs = (out, some s')) :
    feed step s (bs ++ cs) = (out ++ (feed step s' cs).1, (feed step s' cs).2) := by
  induction bs generalizing s out with
  | nil =>
    cases h
    rfl
  | cons b bs ih =>
    rw [List.cons_append]
    cases hstep : step s b with
    | none =>
      rw [feed_cons_none hstep] at h
      cases h
    | some r =>
      obtain ⟨s₁, out₁⟩ := r
      rw [feed_cons_some hstep] at h ⊢
      obtain ⟨rfl, h₂⟩ := Prod.mk.inj h
      have hrest : feed step s₁ bs = ((feed step s₁ bs).1, some s') := Prod.ext rfl h₂
      rw [ih hrest, List.append_assoc]

lemma feed_append_none (h : feed step s bs = (out, none)) : feed step s (bs ++ cs) = (out, none) := by
  induction bs generalizing s out with
  | nil => cases h
  | cons b bs ih =>
    rw [List.cons_append]
    cases hstep : step s b with
    | none =>
      rw [feed_cons_none hstep] at h ⊢
      exact h
    | some r =>
      obtain ⟨s₁, out₁⟩ := r
      rw [feed_cons_some hstep] at h ⊢
      obtain ⟨rfl, h₂⟩ := Prod.mk.inj h
      have hrest : feed step s₁ bs = ((feed step s₁ bs).1, none) := Prod.ext rfl h₂
      rw [ih hrest]

lemma feed_front (h : feed step s (bs ++ cs) = (out, some s')) :
    ∃ out₁ s₁, feed step s bs = (out₁, some s₁) ∧ out₁ <+: out := by
  rcases hbs : feed step s bs with ⟨out₁, _ | s₁⟩
  · rw [feed_append_none hbs] at h
    cases h
  · rw [feed_append_some hbs] at h
    exact ⟨out₁, s₁, rfl, _, congrArg Prod.fst h⟩

end MutableBitcoin.Lib

/-!
## Programs that read

A program asks for symbols, a number at a time, and goes on with what it gets. It runs on a list, which it shortens,
or on a device that gives symbols or fails.
-/

namespace MutableBitcoin.Lib

variable {B ε η α β D : Type}

/-- A result, a failure, or a request for `n` symbols. -/
inductive ReadProgram (B ε α : Type) where
  | done (a : α)
  | fail (e : ε)
  | read (n : ℕ) (next : List B → ReadProgram B ε α)

namespace ReadProgram

def bind : ReadProgram B ε α → (α → ReadProgram B ε β) → ReadProgram B ε β
  | done a, f => f a
  | fail e, _ => fail e
  | read n next, f => read n (fun l => (next l).bind f)

instance : Monad (ReadProgram B ε) where
  pure := done
  bind := bind

/-- Ask for `n` symbols. -/
def get (n : ℕ) : ReadProgram B ε (List B) := read n done

/-- On a list. A request for more than is left fails with `short`. -/
def onList (short : ε) : ReadProgram B ε α → List B → Except ε (α × List B)
  | done a, l => .ok (a, l)
  | fail e, _ => .error e
  | read n next, l => if n ≤ l.length then onList short (next (l.take n)) (l.drop n) else .error short

/-- Runs the program, each read answered by the device. -/
def onDevice (device : ℕ → D → Except η (List B) × D) : ReadProgram B ε α → D → Except (ε ⊕ η) α × D
  | done a, d => (.ok a, d)
  | fail e, d => (.error (.inl e), d)
  | read n next, d =>
    match device n d with
    | (.error e, d) => (.error (.inr e), d)
    | (.ok l, d) => onDevice device (next l) d

section OnList

variable {short : ε} {x : ReadProgram B ε α} {f : α → ReadProgram B ε β} {l : List B}

@[simp] lemma onList_pure (a : α) : (pure a : ReadProgram B ε α).onList short l = .ok (a, l) := rfl

@[simp] lemma onList_fail (e : ε) : (fail e : ReadProgram B ε α).onList short l = .error e := rfl

lemma onList_get (n : ℕ) :
    (get n : ReadProgram B ε (List B)).onList short l =
      if n ≤ l.length then .ok (l.take n, l.drop n) else .error short := rfl

lemma onList_bind : (x >>= f).onList short l = (x.onList short l).bind (fun r => (f r.1).onList short r.2) := by
  show (x.bind f).onList short l = _
  induction x generalizing l with
  | done a => rfl
  | fail e => rfl
  | read n next ih =>
    have hstep : (bind (read n next) f).onList short l =
        if n ≤ l.length then ((next (l.take n)).bind f).onList short (l.drop n) else .error short := rfl
    rw [hstep, onList]
    split_ifs with h
    · exact ih _
    · rfl

end OnList

/-- No request is above `bound`, and a result has `Q`, whatever the answers are. -/
def Asks (bound : ℕ) (Q : α → Prop) : ReadProgram B ε α → Prop
  | done a => Q a
  | fail _ => True
  | read n next => n ≤ bound ∧ ∀ l, Asks bound Q (next l)

section Asks

variable {bound : ℕ} {Q : α → Prop} {Q' : β → Prop} {x : ReadProgram B ε α} {f : α → ReadProgram B ε β}

lemma asks_get {n : ℕ} (h : n ≤ bound) : (get n : ReadProgram B ε (List B)).Asks bound (fun _ => True) :=
  ⟨h, fun _ => trivial⟩

lemma Asks.bind (hx : x.Asks bound Q) (hf : ∀ a, Q a → (f a).Asks bound Q') : (x >>= f).Asks bound Q' := by
  show (x.bind f).Asks bound Q'
  induction x with
  | done a => exact hf a hx
  | fail e => exact trivial
  | read n next ih => exact ⟨hx.1, fun l => ih l (hx.2 l)⟩

lemma Asks.andThen (hx : x.Asks bound (fun _ => True)) (hf : ∀ a, (f a).Asks bound Q') : (x >>= f).Asks bound Q' :=
  hx.bind fun a _ => hf a

lemma Asks.ite {p : Prop} [Decidable p] {y : ReadProgram B ε α} (hx : p → x.Asks bound Q) (hy : ¬p → y.Asks bound Q) :
    (if p then x else y).Asks bound Q := by
  split_ifs with h
  · exact hx h
  · exact hy h

end Asks

section OnDevice

variable {device : ℕ → D → Except η (List B) × D} {x : ReadProgram B ε α} {short : ε}

lemma Asks.onDevice_keeps {bound : ℕ} {Q : α → Prop} {P : D → Prop} {E : η → Prop} (hx : x.Asks bound Q)
    (hdevice : ∀ n d, n ≤ bound → P d → P (device n d).2 ∧ ∀ e, (device n d).1 = .error e → E e) {d : D} (h : P d) :
    P (x.onDevice device d).2 ∧ ∀ e, (x.onDevice device d).1 = .error (.inr e) → E e := by
  induction x generalizing d with
  | done a => exact ⟨h, fun e he => nomatch he⟩
  | fail e => exact ⟨h, fun e he => nomatch he⟩
  | read n next ih =>
    obtain ⟨hnext, hfails⟩ := hdevice n d hx.1 h
    unfold onDevice
    generalize device n d = r at hnext hfails
    obtain ⟨answer, d₂⟩ := r
    cases answer with
    | error e => exact ⟨hnext, fun e' he => Sum.inr.inj (Except.error.inj he) ▸ hfails e rfl⟩
    | ok l => exact ih l (hx.2 l) hnext

lemma onDevice_read {n : ℕ} {next : List B → ReadProgram B ε α} {d d' : D} {l : List B} (h : device n d = (.ok l, d')) :
    (read n next).onDevice device d = (next l).onDevice device d' := by
  rw [onDevice, h]

lemma onList_read {n : ℕ} {next : List B → ReadProgram B ε α} {l : List B} {r : α × List B}
    (h : (read n next).onList short l = .ok r) :
    n ≤ l.length ∧ (next (l.take n)).onList short (l.drop n) = .ok r := by
  unfold onList at h
  split_ifs at h with hn
  exact ⟨hn, h⟩

lemma onDevice_of_onList {R : D → List B → Prop}
    (hdevice : ∀ n d l, R d l → n ≤ l.length → ∃ d', device n d = (.ok (l.take n), d') ∧ R d' (l.drop n))
    {d : D} {l rest : List B} {a : α} (hR : R d l) (h : x.onList short l = .ok (a, rest)) :
    ∃ d', x.onDevice device d = (.ok a, d') ∧ R d' rest := by
  induction x generalizing d l with
  | done b =>
    obtain ⟨rfl, rfl⟩ := Prod.mk.inj (Except.ok.inj h)
    exact ⟨d, rfl, hR⟩
  | fail e => cases h
  | read n next ih =>
    obtain ⟨hn, hrest⟩ := onList_read h
    obtain ⟨d', hanswer, hR'⟩ := hdevice n d l hR hn
    obtain ⟨d'', hrun, hR''⟩ := ih _ hR' hrest
    exact ⟨d'', (onDevice_read hanswer).trans hrun, hR''⟩

end OnDevice

end ReadProgram

end MutableBitcoin.Lib
