import MutableBitcoin.ConnectBlock
import MutableBitcoin.Base64
import MutableBitcoin.Lib.DecimalText

/-!
# Amounts as text

`ParseFixedPoint` of `utilstrencodings.cpp`, `FormatMoney` and `ParseMoney` of `utilmoneystr.cpp`. A result that
does not fit the type it is computed in is a failure of its own.
-/

namespace MutableBitcoin
open Lib

/-- A text that is refused, or signed overflow. -/
inductive ParseFailure
  | rejected
  | overflow
deriving DecidableEq

def checkedInt64 (x : ℤ) : Except ParseFailure ℤ :=
  if FitsInt64 x then .ok x else .error .overflow

/-- The counters are of type `int`. -/
def checkedInt (n : ℕ) : Except ParseFailure ℕ :=
  if n < 2 ^ 31 then .ok n else .error .overflow

def UPPER_BOUND : ℤ := 1000000000000000000 - 1

/-- The variables of the parser. -/
structure FixedPoint where
  mantissa : ℤ
  exponent : ℤ
  mantissa_tzeros : ℕ
  point_ofs : ℕ

def shiftMantissa : ℕ → ℤ → Except ParseFailure ℤ
  | 0, mantissa => .ok mantissa
  | rounds + 1, mantissa =>
    if UPPER_BOUND / 10 < mantissa then .error .rejected -- overflow
    else do shiftMantissa rounds (← checkedInt64 (mantissa * 10))

def processMantissaDigit (ch : Char) (st : FixedPoint) : Except ParseFailure FixedPoint :=
  if ch = '0' then do
    .ok { st with mantissa_tzeros := ← checkedInt (st.mantissa_tzeros + 1) }
  else do
    let mantissa ← shiftMantissa (st.mantissa_tzeros + 1) st.mantissa
    .ok { st with mantissa := ← checkedInt64 (mantissa + (ch.toNat - '0'.toNat)), mantissa_tzeros := 0 }

def processFractionDigit (ch : Char) (st : FixedPoint) : Except ParseFailure FixedPoint := do
  let st ← processMantissaDigit ch st
  .ok { st with point_ofs := ← checkedInt (st.point_ofs + 1) }

def processExponentDigit (ch : Char) (st : FixedPoint) : Except ParseFailure FixedPoint :=
  if UPPER_BOUND / 10 < st.exponent then .error .rejected -- overflow
  else do
    let product ← checkedInt64 (st.exponent * 10)
    let sum ← checkedInt64 (product + ch.toNat)
    .ok { st with exponent := ← checkedInt64 (sum - '0'.toNat) }

def digitLoop (step : Char → FixedPoint → Except ParseFailure FixedPoint) :
    FixedPoint → Str → Except ParseFailure (FixedPoint × Str)
  | st, [] => .ok (st, [])
  | st, ch :: val =>
    if ch.isDigit then do digitLoop step (← step ch st) val
    else .ok (st, ch :: val)

def someDigits (step : Char → FixedPoint → Except ParseFailure FixedPoint) (st : FixedPoint) (val : Str) :
    Except ParseFailure (FixedPoint × Str) :=
  match val with
  | ch :: _ => if ch.isDigit then digitLoop step st val else .error .rejected
  | [] => .error .rejected

def readWhole (st : FixedPoint) (val : Str) : Except ParseFailure (FixedPoint × Str) :=
  match val with
  | '0' :: val => .ok (st, val) -- pass single 0
  | val => someDigits processMantissaDigit st val

def readFraction (st : FixedPoint) (val : Str) : Except ParseFailure (FixedPoint × Str) :=
  match val with
  | '.' :: val => someDigits processFractionDigit st val
  | val => .ok (st, val)

def isMinus (val : Str) : Bool := val.head? == some '-'

def skipSign (val : Str) : Str := if val.head? = some '+' ∨ isMinus val then val.tail else val

/-- The exponent, and `exponent_sign`. -/
def readExponent (st : FixedPoint) (val : Str) : Except ParseFailure (Bool × FixedPoint × Str) :=
  match val with
  | ch :: val =>
    if ch = 'e' ∨ ch = 'E' then do
      .ok (isMinus val, ← someDigits processExponentDigit st (skipSign val))
    else .ok (false, st, ch :: val)
  | [] => .ok (false, st, [])

/-- What the parser has read, before the signs are applied. -/
structure ParsedNumber where
  mantissa_sign : Bool
  exponent_sign : Bool
  st : FixedPoint

/-- The text up to the check for trailing garbage. A size that does not fit `int end` is not followed up. -/
def readNumber (val : Str) : Except ParseFailure ParsedNumber :=
  if 2 ^ 31 ≤ val.length then .error .overflow
  else do
    let (st, rest) ← readWhole ⟨0, 0, 0, 0⟩ (if isMinus val then val.tail else val)
    let (st, rest) ← readFraction st rest
    let (exponent_sign, st, rest) ← readExponent st rest
    if rest ≠ [] then .error .rejected -- trailing garbage
    else .ok ⟨isMinus val, exponent_sign, st⟩

def scaleMantissa : ℕ → ℤ → Except ParseFailure ℤ
  | 0, mantissa => .ok mantissa
  | rounds + 1, mantissa =>
    if UPPER_BOUND / 10 < mantissa ∨ mantissa < -(UPPER_BOUND / 10) then .error .rejected -- overflow
    else do scaleMantissa rounds (← checkedInt64 (mantissa * 10))

def applySign (minus : Bool) (x : ℤ) : Except ParseFailure ℤ :=
  if minus then checkedInt64 (-x) else .ok x

/-- `ParseFixedPoint` behind its scan. -/
def finalizeNumber (num : ParsedNumber) (decimals : ℤ) : Except ParseFailure ℤ := do
  let exponent ← applySign num.exponent_sign num.st.exponent
  let exponent ← checkedInt64 (exponent - num.st.point_ofs)
  let exponent ← checkedInt64 (exponent + num.st.mantissa_tzeros)
  let mantissa ← applySign num.mantissa_sign num.st.mantissa
  let exponent ← checkedInt64 (exponent + decimals)
  if exponent < 0 then .error .rejected -- cannot represent values smaller than 10^-decimals
  else if 18 ≤ exponent then .error .rejected -- cannot represent values from 10^(18-decimals) on
  else do
    let mantissa ← scaleMantissa exponent.toNat mantissa
    if UPPER_BOUND < mantissa ∨ mantissa < -UPPER_BOUND then .error .rejected -- overflow
    else .ok mantissa

def parseFixedPoint (val : Str) (decimals : ℤ) : Except ParseFailure ℤ := do
  finalizeNumber (← readNumber val) decimals

/-- `%08d` of a number that is not negative. -/
def eightDigits (n : ℕ) : Str := List.replicate (8 - (Nat.toDigits 10 n).length) '0' ++ Nat.toDigits 10 n

/-- The loop that counts the zeros to trim, from the index of the last character on. The point stops it before it
reaches the beginning of the text. -/
def countTrim (str : Str) : ℕ → ℕ
  | i + 2 => if str.getD (i + 2) nul = '0' ∧ (str.getD i nul).isDigit then countTrim str (i + 1) + 1 else 0
  | _ => 0

/-- `FormatMoney`. -/
def formatMoneyText (n : ℤ) : Except ParseFailure Str := do
  let n_abs ← applySign (!decide (0 < n)) n
  let quotient := n_abs / COIN.toInt
  let remainder := n_abs % COIN.toInt
  let str := Nat.toDigits 10 quotient.toNat ++ '.' :: eightDigits remainder.toNat
  let nTrim := countTrim str (str.length - 1)
  .ok (signText (n < 0) ++ str.take (str.length - nTrim))

/-- `strtoll` with base ten. -/
def atoi64 (psz : Str) : ℤ :=
  let psz := psz.dropWhile isspace
  let n : ℤ := decimalValue ((skipSign psz).takeWhile Char.isDigit)
  max (-2 ^ 63) (min (2 ^ 63 - 1) (if isMinus psz then -n else n))

/-- The loop over the digits behind the point: `nUnits`, and the text behind the digits it reads. -/
def readUnits : ℤ → ℤ → Str → Except ParseFailure (ℤ × Str)
  | nUnits, _, [] => .ok (nUnits, [])
  | nUnits, nMult, ch :: p =>
    if ch.isDigit ∧ 0 < nMult then do
      let product ← checkedInt64 (nMult * (ch.toNat - '0'.toNat))
      readUnits (← checkedInt64 (nUnits + product)) (nMult / 10) p
    else .ok (nUnits, ch :: p)

/-- The loop over the whole coins: `strWhole`, `nUnits` and what is left of the text. -/
def readCoins : Str → Str → Except ParseFailure (Str × ℤ × Str)
  | strWhole, [] => .ok (strWhole, 0, [])
  | strWhole, ch :: p =>
    if ch = '.' then do
      .ok (strWhole, ← readUnits 0 (CENT.toInt * 10) p)
    else if isspace ch then .ok (strWhole, 0, ch :: p)
    else if ¬ ch.isDigit then .error .rejected
    else readCoins (strWhole ++ [ch]) p

/-- `ParseMoney`. -/
def parseMoney (str : Str) : Except ParseFailure ℤ := do
  let pszIn := str.takeWhile (· ≠ nul)
  let (strWhole, nUnits, p) ← readCoins [] (pszIn.dropWhile isspace)
  if ¬ p.all isspace then .error .rejected
  else if 10 < strWhole.length then .error .rejected -- guard against 63 bit overflow
  else if nUnits < 0 ∨ COIN.toInt < nUnits then .error .rejected
  else do
    let coins ← checkedInt64 (atoi64 strWhole * COIN.toInt)
    checkedInt64 (coins + nUnits)

end MutableBitcoin
