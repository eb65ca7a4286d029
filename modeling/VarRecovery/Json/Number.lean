import VarRecovery.Json.Basic
import VarRecovery.Word

/-!
Numbers in JSON text: an integer part without leading zeros, then perhaps a fraction and an exponent.
-/

set_option autoImplicit false

namespace VarRecovery.Json

/-- A number as it is written: digits before the point and behind it, and the exponent if there is one. -/
structure Numeral where
  isNegative : Bool
  whole : List Char
  fraction : List Char
  exponent? : Option Int

def readDigits (cs : List Char) : Option (List Char × List Char) :=
  match cs.takeWhile Char.isDigit with
  | [] => none
  | digits => some (digits, cs.dropWhile Char.isDigit)

def readFraction : List Char → Option (List Char × List Char)
  | '.' :: rest => readDigits rest
  | rest => some ([], rest)

def readSign : List Char → Bool × List Char
  | '-' :: rest => (true, rest)
  | '+' :: rest => (false, rest)
  | rest => (false, rest)

def readExponent (cs : List Char) : Option (Option Int × List Char) :=
  match cs with
  | c :: rest =>
    if c = 'e' || c = 'E' then do
      let (isNegative, rest) := readSign rest
      let (digits, rest) ← readDigits rest
      let n := Nat.ofDigitChars 10 digits 0
      return (some (if isNegative then -n else n), rest)
    else some (none, cs)
  | [] => some (none, [])

/-- A number may start with a minus, but with no plus. -/
def readMinus : List Char → Bool × List Char
  | '-' :: rest => (true, rest)
  | rest => (false, rest)

def readNumeral (cs : List Char) : Option (Numeral × List Char) := do
  let (isNegative, cs) := readMinus cs
  let (whole, cs) ← readDigits cs
  -- A zero in front stands alone.
  if whole.head? = some '0' ∧ whole ≠ ['0'] then none
  let (fraction, cs) ← readFraction cs
  let (exponent?, cs) ← readExponent cs
  return (⟨isNegative, whole, fraction, exponent?⟩, cs)

/-- The numbers that a double rounds to infinity start here. -/
def doubleLimit : Nat :=
  Nat.pow 2 1024 - Nat.pow 2 970

/-- A whole number to 53 significant bits: the nearest number that has no more, and of two the one whose
bits are even. -/
def roundToDouble (n : Nat) : Nat :=
  let unit := Nat.pow 2 (n.log2 - 52)
  let quotient := n / unit
  let rest := n % unit
  if unit < 2 * rest ∨ (unit = 2 * rest ∧ quotient % 2 = 1) then (quotient + 1) * unit
  else quotient * unit

/-- Goes on with the digits of a number as long as it fits into a word. The number, and the digits from
the first on that does not fit. -/
def accumulate (n : Nat) : List Char → Nat × List Char
  | [] => (n, [])
  | digit :: digits =>
    let next := n * 10 + (digit.toNat - '0'.toNat)
    if next < Word.count then accumulate next digits else (n, digit :: digits)

namespace Numeral

/-- Whether there is neither a fraction nor an exponent. -/
def isInteger (n : Numeral) : Bool :=
  n.fraction.isEmpty && n.exponent?.isNone

/-- The digits of a number that count for its size, as a whole number, and the power of ten it is to be
multiplied by. The digits before the point and those behind it each end where a word is full. -/
def scaled (n : Numeral) : Nat × Int :=
  let (whole, dropped) := accumulate 0 n.whole
  let (mantissa, unread) := accumulate whole n.fraction
  let exponent := n.exponent?.getD 0
  -- A digit left out before the point counts as a zero, and one behind it not at all.
  (mantissa, exponent + dropped.length - (n.fraction.length - unread.length : Nat))

/-- Whether a number has a size that a double can hold. The mantissa and the power of ten are rounded
before they are multiplied, so next to the limit this is not the size the digits say. -/
def isFinite (n : Numeral) : Bool :=
  let (mantissa, exponent) := n.scaled
  if mantissa = 0 ∨ exponent < 0 then true
  else if 308 < exponent then false
  else roundToDouble mantissa * roundToDouble (Nat.pow 10 exponent.toNat) < doubleLimit

/-- The value of a number. Minus zero is no integer, nor is what 64 bits do not hold. -/
def value (n : Numeral) : Json :=
  let magnitude := Nat.ofDigitChars 10 n.whole 0
  if n.isInteger then
    if n.isNegative then
      if magnitude ≠ 0 ∧ magnitude ≤ 0x8000000000000000 then .int (-magnitude) else .real n.isFinite
    else if magnitude < Word.count then .int magnitude
    else .real n.isFinite
  else .real n.isFinite

end Numeral

theorem length_of_readDigits {cs digits rest : List Char}
    (h : readDigits cs = some (digits, rest)) : rest.length < cs.length := by
  unfold readDigits at h
  have hlen := congrArg List.length (List.takeWhile_append_dropWhile (p := Char.isDigit) (l := cs))
  split at h
  · contradiction
  · next hd =>
    obtain ⟨-, rfl⟩ := by simpa using h
    have : (cs.takeWhile Char.isDigit).length ≠ 0 := by simpa using hd
    simp only [List.length_append] at hlen
    omega

theorem length_of_readFraction {cs digits rest : List Char}
    (h : readFraction cs = some (digits, rest)) : rest.length ≤ cs.length := by
  unfold readFraction at h
  split at h
  · have := length_of_readDigits h
    simp only [List.length_cons]
    omega
  · obtain ⟨-, rfl⟩ := by simpa using h
    exact Nat.le_refl _

theorem length_readSign (cs : List Char) : (readSign cs).2.length ≤ cs.length := by
  unfold readSign
  split <;> simp

theorem length_readMinus (cs : List Char) : (readMinus cs).2.length ≤ cs.length := by
  unfold readMinus
  split <;> simp

theorem length_of_readExponent {cs rest : List Char} {exponent : Option Int}
    (h : readExponent cs = some (exponent, rest)) : rest.length ≤ cs.length := by
  unfold readExponent at h
  split at h
  · next c r =>
    split at h
    · obtain ⟨digits, hr, -⟩ := by simpa [Option.bind_eq_some_iff] using h
      have := length_of_readDigits hr
      have := length_readSign r
      simp only [List.length_cons]
      omega
    · obtain ⟨-, rfl⟩ := by simpa using h
      exact Nat.le_refl _
  · obtain ⟨-, rfl⟩ := by simpa using h
    exact Nat.le_refl _

theorem length_of_readNumeral {cs rest : List Char} {n : Numeral}
    (h : readNumeral cs = some (n, rest)) : rest.length < cs.length := by
  unfold readNumeral at h
  simp only [Option.bind_eq_bind, Option.bind_eq_some_iff] at h
  obtain ⟨⟨digits, r⟩, hd, h⟩ := h
  split at h
  · simp at h
  · obtain ⟨fraction, r', hf, exponent, he, -⟩ := by
      simpa [Option.bind_eq_some_iff] using h
    have := length_of_readDigits hd
    have := length_of_readFraction hf
    have := length_of_readExponent he
    have := length_readMinus cs
    omega

end VarRecovery.Json
