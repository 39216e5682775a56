import MutableBitcoin.Lib.Numeral

/-!
# SHA-256

The hash function of FIPS 180-4 on byte strings. Words are natural numbers below `2 ^ 32`; additions are reduced
where the standard reduces them.
-/

namespace MutableBitcoin.Lib.Sha256

def low32 (x : ℕ) : ℕ := Nat.mod x 4294967296

def rotr (x n : ℕ) : ℕ := low32 (Nat.shiftRight (Nat.mul x 4294967297) n)

def ch (x y z : ℕ) : ℕ := Nat.xor z (Nat.land x (Nat.xor y z))

def maj (x y z : ℕ) : ℕ := Nat.lor (Nat.land x y) (Nat.land z (Nat.lor x y))

def bigSigma0 (x : ℕ) : ℕ := Nat.xor (Nat.xor (rotr x 2) (rotr x 13)) (rotr x 22)

def bigSigma1 (x : ℕ) : ℕ := Nat.xor (Nat.xor (rotr x 6) (rotr x 11)) (rotr x 25)

def sigma0 (x : ℕ) : ℕ := Nat.xor (Nat.xor (rotr x 7) (rotr x 18)) (Nat.shiftRight x 3)

def sigma1 (x : ℕ) : ℕ := Nat.xor (Nat.xor (rotr x 17) (rotr x 19)) (Nat.shiftRight x 10)

/-- The eight working variables. -/
structure State where
  a : ℕ
  b : ℕ
  c : ℕ
  d : ℕ
  e : ℕ
  f : ℕ
  g : ℕ
  h : ℕ
deriving DecidableEq

def initial : State :=
  ⟨0x6a09e667, 0xbb67ae85, 0x3c6ef372, 0xa54ff53a, 0x510e527f, 0x9b05688c, 0x1f83d9ab, 0x5be0cd19⟩

def roundConstants : List ℕ :=
  [0x428a2f98, 0x71374491, 0xb5c0fbcf, 0xe9b5dba5, 0x3956c25b, 0x59f111f1, 0x923f82a4, 0xab1c5ed5,
   0xd807aa98, 0x12835b01, 0x243185be, 0x550c7dc3, 0x72be5d74, 0x80deb1fe, 0x9bdc06a7, 0xc19bf174,
   0xe49b69c1, 0xefbe4786, 0x0fc19dc6, 0x240ca1cc, 0x2de92c6f, 0x4a7484aa, 0x5cb0a9dc, 0x76f988da,
   0x983e5152, 0xa831c66d, 0xb00327c8, 0xbf597fc7, 0xc6e00bf3, 0xd5a79147, 0x06ca6351, 0x14292967,
   0x27b70a85, 0x2e1b2138, 0x4d2c6dfc, 0x53380d13, 0x650a7354, 0x766a0abb, 0x81c2c92e, 0x92722c85,
   0xa2bfe8a1, 0xa81a664b, 0xc24b8b70, 0xc76c51a3, 0xd192e819, 0xd6990624, 0xf40e3585, 0x106aa070,
   0x19a4c116, 0x1e376c08, 0x2748774c, 0x34b0bcb5, 0x391c0cb3, 0x4ed8aa4a, 0x5b9cca4f, 0x682e6ff3,
   0x748f82ee, 0x78a5636f, 0x84c87814, 0x8cc70208, 0x90befffa, 0xa4506ceb, 0xbef9a3f7, 0xc67178f2]

def rounds : List ℕ → List ℕ → ℕ → ℕ → ℕ → ℕ → ℕ → ℕ → ℕ → ℕ → State
  | k :: ks, w :: ws, a, b, c, d, e, f, g, h =>
    let t₁ := low32 (Nat.add (Nat.add (Nat.add (Nat.add h (bigSigma1 e)) (ch e f g)) k) w)
    let t₂ := Nat.add (bigSigma0 a) (maj a b c)
    rounds ks ws (low32 (Nat.add t₁ t₂)) a b c (low32 (Nat.add d t₁)) e f g
  | _, _, a, b, c, d, e, f, g, h => ⟨a, b, c, d, e, f, g, h⟩

def schedule : ℕ → ℕ → ℕ → ℕ → ℕ → ℕ → ℕ → ℕ → ℕ → ℕ → ℕ → ℕ → ℕ → ℕ → ℕ → ℕ → ℕ → List ℕ
  | 0, _, _, _, _, _, _, _, _, _, _, _, _, _, _, _, _ => []
  | n + 1, w₀, w₁, w₂, w₃, w₄, w₅, w₆, w₇, w₈, w₉, w₁₀, w₁₁, w₁₂, w₁₃, w₁₄, w₁₅ =>
    w₀ :: schedule n w₁ w₂ w₃ w₄ w₅ w₆ w₇ w₈ w₉ w₁₀ w₁₁ w₁₂ w₁₃ w₁₄ w₁₅
      (low32 (Nat.add (Nat.add (Nat.add (sigma1 w₁₄) w₉) (sigma0 w₁)) w₀))

def addState (s t : State) : State :=
  ⟨low32 (Nat.add s.a t.a), low32 (Nat.add s.b t.b), low32 (Nat.add s.c t.c),
   low32 (Nat.add s.d t.d), low32 (Nat.add s.e t.e), low32 (Nat.add s.f t.f),
   low32 (Nat.add s.g t.g), low32 (Nat.add s.h t.h)⟩

/-- The compression function on every block of sixteen words. -/
def compress : State → List ℕ → State
  | s, w₀ :: w₁ :: w₂ :: w₃ :: w₄ :: w₅ :: w₆ :: w₇ :: w₈ :: w₉ :: w₁₀ :: w₁₁ :: w₁₂ :: w₁₃ ::
      w₁₄ :: w₁₅ :: ws =>
    let w := schedule 64 w₀ w₁ w₂ w₃ w₄ w₅ w₆ w₇ w₈ w₉ w₁₀ w₁₁ w₁₂ w₁₃ w₁₄ w₁₅
    compress (addState s (rounds roundConstants w s.a s.b s.c s.d s.e s.f s.g s.h)) ws
  | s, _ => s

def beWords : List UInt8 → List ℕ
  | b₀ :: b₁ :: b₂ :: b₃ :: bs =>
    Nat.add (Nat.mul 256 (Nat.add (Nat.mul 256 (Nat.add (Nat.mul 256 b₀.toNat) b₁.toNat))
      b₂.toNat)) b₃.toNat :: beWords bs
  | _ => []

def padding (length : ℕ) : List UInt8 :=
  0x80 :: (List.replicate ((119 - length % 64) % 64) 0 ++ (leBytes 8 (8 * length)).reverse)

def digest (s : State) : List UInt8 :=
  [s.a, s.b, s.c, s.d, s.e, s.f, s.g, s.h].flatMap (fun w => (leBytes 4 w).reverse)

@[simp] lemma length_digest (s : State) : (digest s).length = 32 := by
  simp [digest]

def hash (m : List UInt8) : List UInt8 :=
  digest (compress initial (beWords (m ++ padding m.length)))

@[simp] lemma length_hash (m : List UInt8) : (hash m).length = 32 := length_digest _

example : hash [] =
    [0xe3, 0xb0, 0xc4, 0x42, 0x98, 0xfc, 0x1c, 0x14, 0x9a, 0xfb, 0xf4, 0xc8, 0x99, 0x6f, 0xb9, 0x24,
     0x27, 0xae, 0x41, 0xe4, 0x64, 0x9b, 0x93, 0x4c, 0xa4, 0x95, 0x99, 0x1b, 0x78, 0x52, 0xb8, 0x55] := by
  decide +kernel

end MutableBitcoin.Lib.Sha256
