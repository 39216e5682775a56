import MutableBitcoin.Lib.Fips180
import MutableBitcoin.Uint256
import Mathlib.Tactic.FinCases

/-!
# The rounds of SHA-256

`sha256::Transform` of `crypto/sha256.cpp`. Its local variables are eight registers and sixteen words
of the schedule, and its rounds are listed as they stand in the source: each names the registers
that play the parts of `a` to `h` and says how its word is made.
-/

namespace MutableBitcoin
open Lib List BitVec

namespace CSHA256

/-! ### The code -/

def ch (x y z : UInt32) : UInt32 := z ^^^ (x &&& (y ^^^ z))
def maj (x y z : UInt32) : UInt32 := (x &&& y) ||| (z &&& (x ||| y))
def bigSigma0 (x : UInt32) : UInt32 :=
  (x >>> 2 ||| x <<< 30) ^^^ (x >>> 13 ||| x <<< 19) ^^^ (x >>> 22 ||| x <<< 10)
def bigSigma1 (x : UInt32) : UInt32 :=
  (x >>> 6 ||| x <<< 26) ^^^ (x >>> 11 ||| x <<< 21) ^^^ (x >>> 25 ||| x <<< 7)
def sigma0 (x : UInt32) : UInt32 := (x >>> 7 ||| x <<< 25) ^^^ (x >>> 18 ||| x <<< 14) ^^^ (x >>> 3)
def sigma1 (x : UInt32) : UInt32 := (x >>> 17 ||| x <<< 15) ^^^ (x >>> 19 ||| x <<< 13) ^^^ (x >>> 10)

/-- `ReadBE32(chunk + offset)`. -/
def readBE32 (chunk : Bytes) (offset : ℕ) : UInt32 :=
  UInt32.ofNat (leValue ((chunk.drop offset).take 4).reverse)

/-- The variables `a` to `h`. -/
abbrev Reg := Fin 8

scoped instance neZero_eight : NeZero 8 := ⟨by decide⟩

def a : Reg := 0
def b : Reg := 1
def c : Reg := 2
def d : Reg := 3
def e : Reg := 4
def f : Reg := 5
def g : Reg := 6
def h : Reg := 7

/-- The last argument of a round: `wᵢ = ReadBE32(chunk + offset)`,
`wᵢ += sigma1(wⱼ) + wₖ + sigma0(wₗ)`, and the same sum without the assignment. -/
inductive WordExpr where
  | assign (i : Fin 16) (offset : ℕ)
  | addAssign (i j k l : Fin 16)
  | add (i j k l : Fin 16)
deriving DecidableEq

/-- A line `Round(a, b, c, d, e, f, g, h, k, w)`. -/
structure RoundCall where
  a : Reg
  b : Reg
  c : Reg
  d : Reg
  e : Reg
  f : Reg
  g : Reg
  h : Reg
  k : UInt32
  w : WordExpr
deriving DecidableEq

/-- The local variables of `Transform`. -/
structure Vars where
  reg : Reg → UInt32
  w : Fin 16 → UInt32

def WordExpr.eval (chunk : Bytes) (v : Vars) : WordExpr → UInt32 × Vars
  | assign i offset =>
    let x := readBE32 chunk offset
    (x, { v with w := Function.update v.w i x })
  | addAssign i j k l =>
    let x := v.w i + (sigma1 (v.w j) + v.w k + sigma0 (v.w l))
    (x, { v with w := Function.update v.w i x })
  | add i j k l => (v.w i + sigma1 (v.w j) + v.w k + sigma0 (v.w l), v)

/-- `Round`, which changes the variables in the places of `d` and `h`. -/
def RoundCall.run (chunk : Bytes) (v : Vars) (r : RoundCall) : Vars :=
  let (w, v) := r.w.eval chunk v
  let t1 := v.reg r.h + bigSigma1 (v.reg r.e) + ch (v.reg r.e) (v.reg r.f) (v.reg r.g) + r.k + w
  let t2 := bigSigma0 (v.reg r.a) + maj (v.reg r.a) (v.reg r.b) (v.reg r.c)
  { v with reg := Function.update (Function.update v.reg r.d (v.reg r.d + t1)) r.h (t1 + t2) }

/-- The rounds as the code writes them. -/
def roundCalls : List RoundCall := [
  ⟨a, b, c, d, e, f, g, h, 0x428a2f98, .assign 0 0⟩,
  ⟨h, a, b, c, d, e, f, g, 0x71374491, .assign 1 4⟩,
  ⟨g, h, a, b, c, d, e, f, 0xb5c0fbcf, .assign 2 8⟩,
  ⟨f, g, h, a, b, c, d, e, 0xe9b5dba5, .assign 3 12⟩,
  ⟨e, f, g, h, a, b, c, d, 0x3956c25b, .assign 4 16⟩,
  ⟨d, e, f, g, h, a, b, c, 0x59f111f1, .assign 5 20⟩,
  ⟨c, d, e, f, g, h, a, b, 0x923f82a4, .assign 6 24⟩,
  ⟨b, c, d, e, f, g, h, a, 0xab1c5ed5, .assign 7 28⟩,
  ⟨a, b, c, d, e, f, g, h, 0xd807aa98, .assign 8 32⟩,
  ⟨h, a, b, c, d, e, f, g, 0x12835b01, .assign 9 36⟩,
  ⟨g, h, a, b, c, d, e, f, 0x243185be, .assign 10 40⟩,
  ⟨f, g, h, a, b, c, d, e, 0x550c7dc3, .assign 11 44⟩,
  ⟨e, f, g, h, a, b, c, d, 0x72be5d74, .assign 12 48⟩,
  ⟨d, e, f, g, h, a, b, c, 0x80deb1fe, .assign 13 52⟩,
  ⟨c, d, e, f, g, h, a, b, 0x9bdc06a7, .assign 14 56⟩,
  ⟨b, c, d, e, f, g, h, a, 0xc19bf174, .assign 15 60⟩,

  ⟨a, b, c, d, e, f, g, h, 0xe49b69c1, .addAssign 0 14 9 1⟩,
  ⟨h, a, b, c, d, e, f, g, 0xefbe4786, .addAssign 1 15 10 2⟩,
  ⟨g, h, a, b, c, d, e, f, 0x0fc19dc6, .addAssign 2 0 11 3⟩,
  ⟨f, g, h, a, b, c, d, e, 0x240ca1cc, .addAssign 3 1 12 4⟩,
  ⟨e, f, g, h, a, b, c, d, 0x2de92c6f, .addAssign 4 2 13 5⟩,
  ⟨d, e, f, g, h, a, b, c, 0x4a7484aa, .addAssign 5 3 14 6⟩,
  ⟨c, d, e, f, g, h, a, b, 0x5cb0a9dc, .addAssign 6 4 15 7⟩,
  ⟨b, c, d, e, f, g, h, a, 0x76f988da, .addAssign 7 5 0 8⟩,
  ⟨a, b, c, d, e, f, g, h, 0x983e5152, .addAssign 8 6 1 9⟩,
  ⟨h, a, b, c, d, e, f, g, 0xa831c66d, .addAssign 9 7 2 10⟩,
  ⟨g, h, a, b, c, d, e, f, 0xb00327c8, .addAssign 10 8 3 11⟩,
  ⟨f, g, h, a, b, c, d, e, 0xbf597fc7, .addAssign 11 9 4 12⟩,
  ⟨e, f, g, h, a, b, c, d, 0xc6e00bf3, .addAssign 12 10 5 13⟩,
  ⟨d, e, f, g, h, a, b, c, 0xd5a79147, .addAssign 13 11 6 14⟩,
  ⟨c, d, e, f, g, h, a, b, 0x06ca6351, .addAssign 14 12 7 15⟩,
  ⟨b, c, d, e, f, g, h, a, 0x14292967, .addAssign 15 13 8 0⟩,

  ⟨a, b, c, d, e, f, g, h, 0x27b70a85, .addAssign 0 14 9 1⟩,
  ⟨h, a, b, c, d, e, f, g, 0x2e1b2138, .addAssign 1 15 10 2⟩,
  ⟨g, h, a, b, c, d, e, f, 0x4d2c6dfc, .addAssign 2 0 11 3⟩,
  ⟨f, g, h, a, b, c, d, e, 0x53380d13, .addAssign 3 1 12 4⟩,
  ⟨e, f, g, h, a, b, c, d, 0x650a7354, .addAssign 4 2 13 5⟩,
  ⟨d, e, f, g, h, a, b, c, 0x766a0abb, .addAssign 5 3 14 6⟩,
  ⟨c, d, e, f, g, h, a, b, 0x81c2c92e, .addAssign 6 4 15 7⟩,
  ⟨b, c, d, e, f, g, h, a, 0x92722c85, .addAssign 7 5 0 8⟩,
  ⟨a, b, c, d, e, f, g, h, 0xa2bfe8a1, .addAssign 8 6 1 9⟩,
  ⟨h, a, b, c, d, e, f, g, 0xa81a664b, .addAssign 9 7 2 10⟩,
  ⟨g, h, a, b, c, d, e, f, 0xc24b8b70, .addAssign 10 8 3 11⟩,
  ⟨f, g, h, a, b, c, d, e, 0xc76c51a3, .addAssign 11 9 4 12⟩,
  ⟨e, f, g, h, a, b, c, d, 0xd192e819, .addAssign 12 10 5 13⟩,
  ⟨d, e, f, g, h, a, b, c, 0xd6990624, .addAssign 13 11 6 14⟩,
  ⟨c, d, e, f, g, h, a, b, 0xf40e3585, .addAssign 14 12 7 15⟩,
  ⟨b, c, d, e, f, g, h, a, 0x106aa070, .addAssign 15 13 8 0⟩,

  ⟨a, b, c, d, e, f, g, h, 0x19a4c116, .addAssign 0 14 9 1⟩,
  ⟨h, a, b, c, d, e, f, g, 0x1e376c08, .addAssign 1 15 10 2⟩,
  ⟨g, h, a, b, c, d, e, f, 0x2748774c, .addAssign 2 0 11 3⟩,
  ⟨f, g, h, a, b, c, d, e, 0x34b0bcb5, .addAssign 3 1 12 4⟩,
  ⟨e, f, g, h, a, b, c, d, 0x391c0cb3, .addAssign 4 2 13 5⟩,
  ⟨d, e, f, g, h, a, b, c, 0x4ed8aa4a, .addAssign 5 3 14 6⟩,
  ⟨c, d, e, f, g, h, a, b, 0x5b9cca4f, .addAssign 6 4 15 7⟩,
  ⟨b, c, d, e, f, g, h, a, 0x682e6ff3, .addAssign 7 5 0 8⟩,
  ⟨a, b, c, d, e, f, g, h, 0x748f82ee, .addAssign 8 6 1 9⟩,
  ⟨h, a, b, c, d, e, f, g, 0x78a5636f, .addAssign 9 7 2 10⟩,
  ⟨g, h, a, b, c, d, e, f, 0x84c87814, .addAssign 10 8 3 11⟩,
  ⟨f, g, h, a, b, c, d, e, 0x8cc70208, .addAssign 11 9 4 12⟩,
  ⟨e, f, g, h, a, b, c, d, 0x90befffa, .addAssign 12 10 5 13⟩,
  ⟨d, e, f, g, h, a, b, c, 0xa4506ceb, .addAssign 13 11 6 14⟩,
  ⟨c, d, e, f, g, h, a, b, 0xbef9a3f7, .add 14 12 7 15⟩,
  ⟨b, c, d, e, f, g, h, a, 0xc67178f2, .add 15 13 8 0⟩]

/-- One turn of the loop of `Transform`. The schedule words hold anything before they are assigned. -/
def transformBlock (s : Fin 8 → UInt32) (chunk : Bytes) : Fin 8 → UInt32 :=
  let v := roundCalls.foldl (RoundCall.run chunk) ⟨s, fun _ => 0⟩
  fun i => s i + v.reg i

/-- `Transform`, one chunk of 64 bytes after the other. -/
def transform (s : Fin 8 → UInt32) (chunk : Bytes) : ℕ → Fin 8 → UInt32
  | 0 => s
  | blocks + 1 => transform (transformBlock s chunk) (chunk.drop 64) blocks

/-! ### The functions -/

section Functions

variable (x y z : UInt32)

lemma ch_eq : ch x y z = Fips180.ch x y z := by
  unfold ch Fips180.ch
  apply UInt32.toBitVec_inj.mp
  ext i hi
  simp only [UInt32.toBitVec_xor, UInt32.toBitVec_and, UInt32.toBitVec_not, getElem_xor,
    getElem_and, getElem_not]
  cases x.toBitVec[i] <;> cases y.toBitVec[i] <;> cases z.toBitVec[i] <;> rfl

lemma maj_eq : maj x y z = Fips180.maj x y z := by
  unfold maj Fips180.maj
  apply UInt32.toBitVec_inj.mp
  ext i hi
  simp only [UInt32.toBitVec_xor, UInt32.toBitVec_and, UInt32.toBitVec_or, getElem_xor,
    getElem_and, getElem_or]
  cases x.toBitVec[i] <;> cases y.toBitVec[i] <;> cases z.toBitVec[i] <;> rfl

lemma bigSigma0_eq : bigSigma0 x = Fips180.bigSigma0 x := rfl

lemma bigSigma1_eq : bigSigma1 x = Fips180.bigSigma1 x := rfl

end Functions

/-! ### The rounds -/

/-- The round at `t`, by its pattern. -/
def roundCallAt (t : ℕ) : RoundCall :=
  let u : Reg := Fin.ofNat 8 t
  let i : Fin 16 := Fin.ofNat 16 t
  ⟨0 - u, 1 - u, 2 - u, 3 - u, 4 - u, 5 - u, 6 - u, 7 - u, Fips180.constant t,
    if t < 16 then .assign i (4 * t)
    else if t < 62 then .addAssign i (i + 14) (i + 9) (i + 1)
    else .add i (i + 14) (i + 9) (i + 1)⟩

lemma roundCalls_eq : roundCalls = (List.range 64).map roundCallAt := by
  decide +kernel

variable {chunk : Bytes} {s : Fin 8 → UInt32} {t : ℕ} {v : Vars}

def scheduleOf (chunk : Bytes) : ℕ → UInt32 := Fips180.schedule (Fips180.wordAt chunk)

lemma scheduleOf_of_lt (h : t < 16) : scheduleOf chunk t = readBE32 chunk (4 * t) :=
  Fips180.schedule_of_lt h

lemma scheduleOf_of_le (h : 16 ≤ t) : scheduleOf chunk t =
    sigma1 (scheduleOf chunk (t - 2)) + scheduleOf chunk (t - 7) + sigma0 (scheduleOf chunk (t - 15)) +
      scheduleOf chunk (t - 16) :=
  Fips180.schedule_of_le h

/-- The sixteen words are those of the schedule. -/
def KeepsWords (chunk : Bytes) (t : ℕ) (w : Fin 16 → UInt32) : Prop :=
  ∀ j < t, j < 62 → t ≤ j + 16 → w (Fin.ofNat 16 j) = scheduleOf chunk j

/-- The variables after `t` rounds. -/
structure AfterRounds (chunk : Bytes) (s : Fin 8 → UInt32) (t : ℕ) (v : Vars) : Prop where
  reg : ∀ r : Fin 8, v.reg (r - Fin.ofNat 8 t) = Fips180.rounds (scheduleOf chunk) s t r
  w : KeepsWords chunk t v.w

lemma ofNat_sixteen_add {j t k : ℕ} (h : t + k = j + 16) :
    Fin.ofNat 16 t + Fin.ofNat 16 k = Fin.ofNat 16 j := by
  apply Fin.ext
  simp only [Fin.val_add, Fin.val_ofNat]
  omega

lemma KeepsWords.update (hw : KeepsWords chunk t v.w) :
    KeepsWords chunk (t + 1) (Function.update v.w (Fin.ofNat 16 t) (scheduleOf chunk t)) := by
  intro j hj hkept hlast
  by_cases hjt : j = t
  · rw [hjt, Function.update_self]
  · have hne : Fin.ofNat 16 j ≠ Fin.ofNat 16 t := by
      intro heq
      have hval := congrArg Fin.val heq
      simp only [Fin.val_ofNat] at hval
      omega
    rw [Function.update_of_ne hne]
    exact hw j (by omega) hkept (by omega)

lemma sum_eq_schedule (hw : KeepsWords chunk t v.w) (hle : 16 ≤ t) (hlt : t < 64) :
    sigma1 (v.w (Fin.ofNat 16 t + 14)) + v.w (Fin.ofNat 16 t + 9) + sigma0 (v.w (Fin.ofNat 16 t + 1)) +
      v.w (Fin.ofNat 16 t) = scheduleOf chunk t := by
  have hplace : ∀ j k, t + k = j + 16 → k < 16 → j < 62 →
      v.w (Fin.ofNat 16 t + Fin.ofNat 16 k) = scheduleOf chunk j := by
    intro j k hj hk hkept
    rw [ofNat_sixteen_add hj]
    exact hw j (by omega) hkept (by omega)
  have hzero : v.w (Fin.ofNat 16 t) = scheduleOf chunk (t - 16) := by
    have h := hplace (t - 16) 0 (by omega) (by omega) (by omega)
    rwa [show Fin.ofNat 16 0 = (0 : Fin 16) from rfl, Fin.add_zero] at h
  rw [scheduleOf_of_le hle, hzero, ← hplace (t - 2) 14 (by omega) (by omega) (by omega), ← hplace (t - 7) 9 (by omega) (by omega) (by omega),
    ← hplace (t - 15) 1 (by omega) (by omega) (by omega)]
  rfl

lemma eval_roundCallAt (hw : KeepsWords chunk t v.w) (hlt : t < 64) :
    ((roundCallAt t).w.eval chunk v).1 = scheduleOf chunk t ∧
      ((roundCallAt t).w.eval chunk v).2.reg = v.reg ∧
      KeepsWords chunk (t + 1) ((roundCallAt t).w.eval chunk v).2.w := by
  unfold roundCallAt
  dsimp only
  by_cases hfirst : t < 16
  · have hword : readBE32 chunk (4 * t) = scheduleOf chunk t := (scheduleOf_of_lt hfirst).symm
    rw [if_pos hfirst]
    refine ⟨hword, rfl, ?_⟩
    simp only [WordExpr.eval]
    rw [hword]
    exact hw.update
  have hsum := sum_eq_schedule hw (Nat.le_of_not_lt hfirst) hlt
  rw [if_neg hfirst]
  by_cases hstored : t < 62
  · have hword : v.w (Fin.ofNat 16 t) + (sigma1 (v.w (Fin.ofNat 16 t + 14)) + v.w (Fin.ofNat 16 t + 9) +
        sigma0 (v.w (Fin.ofNat 16 t + 1))) = scheduleOf chunk t := by
      rw [UInt32.add_comm, hsum]
    rw [if_pos hstored]
    refine ⟨hword, rfl, ?_⟩
    simp only [WordExpr.eval]
    rw [hword]
    exact hw.update
  · rw [if_neg hstored]
    refine ⟨?_, rfl, fun j hj hkept hlast => ?_⟩
    · simp only [WordExpr.eval]
      rw [← hsum]
      ac_rfl
    · exact hw j (by omega) hkept (by omega)

lemma run_roundCallAt (hv : AfterRounds chunk s t v) (hlt : t < 64) :
    AfterRounds chunk s (t + 1) ((roundCallAt t).run chunk v) := by
  obtain ⟨hword, hreg, hwords⟩ := eval_roundCallAt hv.w hlt
  have hsub : ∀ u r : Fin 8, r - (u + 1) = (r - 1) - u := by decide
  have hinj : ∀ u p q : Fin 8, p - u = q - u ↔ p = q := by decide
  have hnext : Fin.ofNat 8 (t + 1) = Fin.ofNat 8 t + 1 := by
    apply Fin.ext
    simp [Fin.val_add]
  have hrole : ∀ r : Fin 8, ((roundCallAt t).w.eval chunk v).2.reg (r - Fin.ofNat 8 t) =
      Fips180.rounds (scheduleOf chunk) s t r := by
    intro r
    rw [hreg, hv.reg]
  refine ⟨fun r => ?_, hwords⟩
  rw [hnext, hsub]
  unfold RoundCall.run
  dsimp only [roundCallAt] at hword hrole ⊢
  simp only [hword, hrole, Function.update_apply, hinj, ch_eq, maj_eq, bigSigma0_eq, bigSigma1_eq,
    Fips180.rounds, Fips180.round]
  match r with
  | 0 | 1 | 2 | 3 | 4 | 5 | 6 | 7 => rfl

lemma foldl_roundCalls (chunk : Bytes) (s : Fin 8 → UInt32) (w : Fin 16 → UInt32) :
    (roundCalls.foldl (RoundCall.run chunk) ⟨s, w⟩).reg = Fips180.rounds (scheduleOf chunk) s 64 := by
  have hrun : ∀ t ≤ 64, AfterRounds chunk s t
      (((List.range t).map roundCallAt).foldl (RoundCall.run chunk) ⟨s, w⟩) := by
    intro t
    induction t with
    | zero =>
      intro _
      have hzero : ∀ r : Fin 8, r - Fin.ofNat 8 0 = r := by decide
      exact ⟨fun r => congrArg s (hzero r), fun j hj => absurd hj (Nat.not_lt_zero j)⟩
    | succ t ih =>
      intro hle
      rw [range_succ, map_append, foldl_append]
      exact run_roundCallAt (ih (by omega)) hle
  have hlast := (hrun 64 le_rfl).reg
  rw [roundCalls_eq]
  funext r
  have hzero : ∀ r : Fin 8, r - Fin.ofNat 8 64 = r := by decide
  rw [← hlast r, hzero]

lemma transformBlock_eq (s : Fin 8 → UInt32) (chunk : Bytes) : transformBlock s chunk = Fips180.compress s chunk := by
  funext i
  rw [transformBlock, foldl_roundCalls, Fips180.compress, UInt32.add_comm]
  rfl

lemma compress_take (s : Fin 8 → UInt32) (chunk : Bytes) :
    Fips180.compress s (chunk.take 64) = Fips180.compress s chunk := by
  have hschedule : ∀ t, scheduleOf (chunk.take 64) t = scheduleOf chunk t := by
    intro t
    induction t using Nat.strong_induction_on with
    | _ t ih =>
      rcases Nat.lt_or_ge t 16 with hlt | hge
      · rw [scheduleOf_of_lt hlt, scheduleOf_of_lt hlt]
        exact Fips180.wordAt_take hlt
      · rw [scheduleOf_of_le hge, scheduleOf_of_le hge, ih _ (by omega), ih _ (by omega),
          ih _ (by omega), ih _ (by omega)]
  rw [← transformBlock_eq, ← transformBlock_eq]
  funext i
  rw [transformBlock, transformBlock, foldl_roundCalls, foldl_roundCalls, funext hschedule]

lemma transform_eq (s : Fin 8 → UInt32) (chunk : Bytes) (blocks : ℕ) :
    transform s chunk blocks = takeBlocks 64 Fips180.compress blocks s chunk := by
  induction blocks generalizing s chunk with
  | zero => rfl
  | succ blocks ih => rw [transform, takeBlocks, ih, transformBlock_eq, compress_take]

end CSHA256

end MutableBitcoin
