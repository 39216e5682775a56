import Mathlib.Data.Nat.Digits.Lemmas

/-!
# Numerals in a buffer

Big-endian numerals without leading zeros, and the pass over a buffer of digits that multiplies the number it
holds and adds to it. The buffer is given from its least significant digit on.
-/

namespace MutableBitcoin.Lib
open Nat (ofDigits digits)

def radixValue (base : ℕ) (ds : List ℕ) : ℕ := ofDigits base ds.reverse

def radixDigits (base n : ℕ) : List ℕ := (digits base n).reverse

section Numerals
variable {base : ℕ}

@[simp] lemma radixValue_nil : radixValue base [] = 0 := rfl

lemma radixValue_concat (ds : List ℕ) (d : ℕ) : radixValue base (ds ++ [d]) = base * radixValue base ds + d := by
  rw [radixValue, List.reverse_append, List.reverse_singleton, List.singleton_append, Nat.ofDigits_cons,
    add_comm]
  rfl

lemma radixValue_append (ds es : List ℕ) :
    radixValue base (ds ++ es) = base ^ es.length * radixValue base ds + radixValue base es := by
  rw [radixValue, List.reverse_append, Nat.ofDigits_append, List.length_reverse, Nat.add_comm]
  rfl

lemma radixValue_cons (d : ℕ) (ds : List ℕ) :
    radixValue base (d :: ds) = base ^ ds.length * d + radixValue base ds := by
  rw [← List.singleton_append, radixValue_append]
  simp [radixValue]

lemma radixValue_lt (hbase : 1 < base) {ds : List ℕ} (hds : ∀ d ∈ ds, d < base) :
    radixValue base ds < base ^ ds.length := by
  rw [← List.length_reverse]
  exact Nat.ofDigits_lt_base_pow_length hbase fun d hd => hds d (List.mem_reverse.mp hd)

lemma radixValue_radixDigits (base n : ℕ) : radixValue base (radixDigits base n) = n := by
  rw [radixValue, radixDigits, List.reverse_reverse, Nat.ofDigits_digits]

lemma lt_of_mem_radixDigits (hbase : 1 < base) {n d : ℕ} (hd : d ∈ radixDigits base n) : d < base :=
  Nat.digits_lt_base hbase (List.mem_reverse.mp hd)

lemma length_radixDigits_le_iff (hbase : 1 < base) (n k : ℕ) :
    (radixDigits base n).length ≤ k ↔ n < base ^ k := by
  rw [radixDigits, List.length_reverse, Nat.digits_length_le_iff hbase]

lemma head?_radixDigits_ne_zero (base n : ℕ) : (radixDigits base n).head? ≠ some 0 := by
  rw [radixDigits, List.head?_reverse]
  by_cases hn : n = 0
  · simp [hn]
  · rw [List.getLast?_eq_some_getLast (Nat.digits_ne_nil_iff_ne_zero.mpr hn)]
    exact fun h => Nat.getLast_digit_ne_zero base hn (Option.some.inj h)

lemma radixDigits_radixValue (hbase : 1 < base) {ds : List ℕ} (hds : ∀ d ∈ ds, d < base)
    (hhead : ds.head? ≠ some 0) :
    radixDigits base (radixValue base ds) = ds := by
  have hlast : ∀ hne : ds.reverse ≠ [], ds.reverse.getLast hne ≠ 0 := by
    intro hne hzero
    rw [← List.getLast?_reverse, List.getLast?_eq_some_getLast hne, hzero] at hhead
    exact hhead rfl
  rw [radixDigits, radixValue, Nat.digits_ofDigits base hbase _ (fun d hd => hds d (List.mem_reverse.mp hd)) hlast,
    List.reverse_reverse]

lemma radixValue_dropWhile_zero (ds : List ℕ) : radixValue base (ds.dropWhile (· == 0)) = radixValue base ds := by
  induction ds with
  | nil => rfl
  | cons d ds ih =>
    rw [List.dropWhile_cons]
    split_ifs with hd
    · rw [ih, radixValue_cons, beq_iff_eq.mp hd, mul_zero, zero_add]
    · rfl

lemma dropWhile_zero_eq (hbase : 1 < base) {ds : List ℕ} (hds : ∀ d ∈ ds, d < base) :
    ds.dropWhile (· == 0) = radixDigits base (radixValue base ds) := by
  rw [← radixValue_dropWhile_zero, radixDigits_radixValue hbase]
  · exact fun d hd => hds d (List.dropWhile_subset _ hd)
  · intro hhead
    have hzero := List.head?_dropWhile_not (fun d => d == 0) ds
    rw [hhead] at hzero
    simp at hzero

end Numerals

/-- One pass over the digits from index `i` on, as long as there is a carry or a digit of the number is left.
Returns the buffer, the carry that does not fit, and the index it stopped at. -/
def mulAdd (mult base length : ℕ) : ℕ → ℕ → List ℕ → List ℕ × ℕ × ℕ
  | i, carry, [] => ([], carry, i)
  | i, carry, d :: ds =>
    if carry ≠ 0 ∨ i < length then
      let carry := carry + mult * d
      let (ds, rest, j) := mulAdd mult base length (i + 1) (carry / base) ds
      (carry % base :: ds, rest, j)
    else (d :: ds, carry, i)

/-- The number in a buffer whose digits from `length` on are zero. -/
structure HoldsNumber (base : ℕ) (buffer : List ℕ) (length value : ℕ) : Prop where
  digit_lt : ∀ d ∈ buffer, d < base
  value_eq : ofDigits base buffer = value
  length_le : length ≤ buffer.length
  value_lt : value < base ^ length

section MulAdd
variable (mult : ℕ) {base length : ℕ}

lemma mulAdd_spec (hbase : 1 < base) (i carry : ℕ) (buffer : List ℕ) (hdigits : ∀ d ∈ buffer, d < base)
    (hvalue : ofDigits base buffer < base ^ (length - i)) :
    let r := mulAdd mult base length i carry buffer
    r.1.length = buffer.length ∧ (∀ d ∈ r.1, d < base) ∧
      ofDigits base r.1 + base ^ buffer.length * r.2.1 = mult * ofDigits base buffer + carry ∧
      i ≤ r.2.2 ∧ r.2.2 ≤ i + buffer.length ∧ ofDigits base r.1 < base ^ (r.2.2 - i) := by
  induction buffer generalizing i carry with
  | nil => simp [mulAdd]
  | cons d ds ih =>
    have hpos : 0 < base := Nat.zero_lt_of_lt hbase
    rw [mulAdd]
    split_ifs with hmore
    · have hrest : ofDigits base ds < base ^ (length - (i + 1)) := by
        rw [Nat.ofDigits_cons] at hvalue
        by_cases hi : i < length
        · rw [show length - i = (length - (i + 1)) + 1 by omega, pow_succ'] at hvalue
          exact Nat.lt_of_mul_lt_mul_left (Nat.lt_of_le_of_lt (Nat.le_add_left _ d) hvalue)
        · rw [show length - i = 0 by omega, pow_zero, Nat.lt_one_iff, Nat.add_eq_zero_iff] at hvalue
          have hzero : ofDigits base ds = 0 := (mul_eq_zero.mp hvalue.2).resolve_left (by omega)
          rw [hzero]
          exact Nat.pow_pos hpos
      obtain ⟨hlength, hlt, heq, hle, hle', hbound⟩ :=
        ih (i + 1) ((carry + mult * d) / base) (fun x hx => hdigits x (List.mem_cons_of_mem _ hx)) hrest
      obtain ⟨r, hr⟩ : ∃ r, mulAdd mult base length (i + 1) ((carry + mult * d) / base) ds = r := ⟨_, rfl⟩
      rw [hr] at hlength hlt heq hle hle' hbound
      simp only [hr, List.length_cons]
      refine ⟨by rw [hlength], ?_, ?_, Nat.le_of_succ_le hle, hle'.trans (by omega), ?_⟩
      · exact List.forall_mem_cons.mpr ⟨Nat.mod_lt _ hpos, hlt⟩
      · simp only [Nat.ofDigits_cons, pow_succ]
        have hdiv := Nat.mod_add_div (carry + mult * d) base
        calc (carry + mult * d) % base + base * ofDigits base r.1 + base ^ ds.length * base * r.2.1
            = (carry + mult * d) % base + base * (ofDigits base r.1 + base ^ ds.length * r.2.1) := by ring
          _ = (carry + mult * d) % base + base * ((carry + mult * d) / base)
              + base * (mult * ofDigits base ds) := by rw [heq]; ring
          _ = mult * (d + base * ofDigits base ds) + carry := by rw [hdiv]; ring
      · simp only [Nat.ofDigits_cons]
        have hmod : (carry + mult * d) % base < base := Nat.mod_lt _ hpos
        rw [show r.2.2 - i = (r.2.2 - (i + 1)) + 1 by omega, pow_succ]
        calc (carry + mult * d) % base + base * ofDigits base r.1
            < base * (ofDigits base r.1 + 1) := by rw [mul_add]; omega
          _ ≤ base * base ^ (r.2.2 - (i + 1)) := Nat.mul_le_mul_left _ hbound
          _ = base ^ (r.2.2 - (i + 1)) * base := mul_comm _ _
    · -- What is left of the buffer is zero, so the number is complete.
      push Not at hmore
      have hzero : ofDigits base (d :: ds) = 0 := by
        rw [show length - i = 0 by omega, pow_zero] at hvalue
        omega
      simp only [hzero, hmore.1, Nat.mul_zero, Nat.add_zero, Nat.sub_self, pow_zero, le_refl, true_and,
        Nat.le_add_right]
      exact ⟨hdigits, Nat.one_pos⟩

variable {mult} {buffer : List ℕ} {value : ℕ}

lemma holdsNumber_zeros (hbase : 0 < base) (size : ℕ) : HoldsNumber base (List.replicate size 0) 0 0 where
  digit_lt d hd := by
    rw [List.eq_of_mem_replicate hd]
    exact hbase
  value_eq := Nat.ofDigits_replicate_zero
  length_le := Nat.zero_le _
  value_lt := by simp

lemma HoldsNumber.mulAdd_fits (hbase : 1 < base) (h : HoldsNumber base buffer length value) {carry : ℕ}
    (hfits : mult * value + carry < base ^ buffer.length) :
    ∃ buffer' length', mulAdd mult base length 0 carry buffer = (buffer', 0, length') ∧
      buffer'.length = buffer.length ∧ HoldsNumber base buffer' length' (mult * value + carry) := by
  obtain ⟨hlength, hlt, heq, -, hle, hbound⟩ := mulAdd_spec mult hbase 0 carry buffer h.digit_lt
    (by rw [h.value_eq]; exact h.value_lt)
  generalize mulAdd mult base length 0 carry buffer = r at *
  rw [h.value_eq] at heq
  have hcarry : r.2.1 = 0 := by
    by_contra hne
    have hle : base ^ buffer.length ≤ base ^ buffer.length * r.2.1 :=
      Nat.le_mul_of_pos_right _ (Nat.pos_of_ne_zero hne)
    omega
  rw [hcarry, mul_zero, add_zero] at heq
  refine ⟨r.1, r.2.2, by rw [← hcarry], hlength, hlt, heq, by omega, ?_⟩
  rw [← heq]
  exact hbound

lemma HoldsNumber.mulAdd_overflows (hbase : 1 < base) (h : HoldsNumber base buffer length value) {carry : ℕ}
    (hfits : base ^ buffer.length ≤ mult * value + carry) :
    (mulAdd mult base length 0 carry buffer).2.1 ≠ 0 := by
  obtain ⟨hlength, hlt, heq, -, -, -⟩ := mulAdd_spec mult hbase 0 carry buffer h.digit_lt
    (by rw [h.value_eq]; exact h.value_lt)
  intro hcarry
  have hfit := Nat.ofDigits_lt_base_pow_length hbase hlt
  rw [h.value_eq, hcarry, mul_zero, add_zero] at heq
  rw [hlength] at hfit
  omega

lemma HoldsNumber.digits_eq (hbase : 1 < base) (h : HoldsNumber base buffer length value) :
    (buffer.take length).reverse.dropWhile (· == 0) = radixDigits base value := by
  have hsplit : ofDigits base buffer = ofDigits base (buffer.take length) +
      base ^ (buffer.take length).length * ofDigits base (buffer.drop length) := by
    rw [← Nat.ofDigits_append, List.take_append_drop]
  have hvalue : ofDigits base (buffer.take length) = value := by
    have hlt := h.value_lt
    rw [h.value_eq, List.length_take, min_eq_left h.length_le] at hsplit
    have hzero : ofDigits base (buffer.drop length) = 0 := by
      by_contra hne
      have hle : base ^ length ≤ base ^ length * ofDigits base (buffer.drop length) :=
        Nat.le_mul_of_pos_right _ (Nat.pos_of_ne_zero hne)
      omega
    rw [hzero, mul_zero, add_zero] at hsplit
    exact hsplit.symm
  rw [dropWhile_zero_eq hbase, radixValue, List.reverse_reverse, hvalue]
  exact fun d hd => h.digit_lt d (List.mem_of_mem_take (List.mem_reverse.mp hd))

end MulAdd

lemma pow_lt_pow_estimate {a b p q : ℕ} (hb : 1 < b) (hq : 0 < q) (happrox : a ^ q ≤ b ^ p) (n : ℕ) :
    a ^ n < b ^ (n * p / q + 1) := by
  refine lt_of_pow_lt_pow_left₀ q (Nat.zero_le _) ?_
  calc (a ^ n) ^ q = (a ^ q) ^ n := by rw [← pow_mul, ← pow_mul, mul_comm]
    _ ≤ (b ^ p) ^ n := Nat.pow_le_pow_left happrox n
    _ = b ^ (n * p) := by rw [← pow_mul, mul_comm]
    _ < b ^ ((n * p / q + 1) * q) := Nat.pow_lt_pow_right hb (Nat.lt_mul_of_div_lt (Nat.lt_succ_self _) hq)
    _ = (b ^ (n * p / q + 1)) ^ q := by rw [pow_mul]

end MutableBitcoin.Lib
