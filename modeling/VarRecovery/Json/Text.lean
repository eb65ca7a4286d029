import VarRecovery.Json.Basic

/-!
Strings in JSON text: how they are quoted, and how a quoted string is read. A reader works on UTF-16
units, since an escape names such a unit and two of them can make one character.
-/

set_option autoImplicit false

namespace VarRecovery.Json

/-- The hexadecimal digits of a number, with zeros in front if there are fewer than `width`. -/
def hexDigits (width n : Nat) : List Char :=
  let digits := Nat.toDigits 16 n
  List.replicate (width - digits.length) '0' ++ digits

/-- Quotes, backslashes and control characters are escaped, by a letter where there is one. -/
def escape (c : Char) : List Char :=
  match c with
  | '"' => ['\\', '"']
  | '\\' => ['\\', '\\']
  | '\x08' => ['\\', 'b']
  | '\x0c' => ['\\', 'f']
  | '\n' => ['\\', 'n']
  | '\r' => ['\\', 'r']
  | '\t' => ['\\', 't']
  | c => if c.toNat < 32 then '\\' :: 'u' :: hexDigits 4 c.toNat else [c]

def quote (s : String) : String :=
  String.ofList ('"' :: s.toList.flatMap escape ++ ['"'])

def array (items : List String) : String :=
  "[" ++ ",".intercalate items ++ "]"

def object (fields : List (String × String)) : String :=
  "\x7b" ++ ",".intercalate (fields.map fun (key, value) => quote key ++ ":" ++ value) ++ "\x7d"

def escaped? : Char → Option Nat
  | '"' => some 0x22
  | '\\' => some 0x5c
  | '/' => some 0x2f
  | 'b' => some 0x08
  | 'f' => some 0x0c
  | 'n' => some 0x0a
  | 'r' => some 0x0d
  | 't' => some 0x09
  | _ => none

def hexValue? (c : Char) : Option Nat :=
  if '0' ≤ c ∧ c ≤ '9' then some (c.toNat - '0'.toNat)
  else if 'a' ≤ c ∧ c ≤ 'f' then some (c.toNat - 'a'.toNat + 10)
  else if 'A' ≤ c ∧ c ≤ 'F' then some (c.toNat - 'A'.toNat + 10)
  else none

def hexValues? : List Char → Option Nat :=
  List.foldlM (fun n c => do return n * 16 + (← hexValue? c)) 0

/-- Reads a string whose opening quote was read: its units, and what follows the closing quote. -/
def readUnits : List Char → Option (List Nat × List Char)
  | '"' :: rest => some ([], rest)
  | '\\' :: 'u' :: a :: b :: c :: d :: rest => do
    let unit ← hexValues? [a, b, c, d]
    let (units, rest) ← readUnits rest
    return (unit :: units, rest)
  | '\\' :: c :: rest => do
    let unit ← escaped? c
    let (units, rest) ← readUnits rest
    return (unit :: units, rest)
  | c :: rest =>
    if c.toNat < 32 then none
    else do
      let (units, rest) ← readUnits rest
      return (c.toNat :: units, rest)
  | [] => none

theorem length_of_readUnits {cs rest : List Char} {units : List Nat}
    (h : readUnits cs = some (units, rest)) : rest.length < cs.length := by
  fun_induction readUnits cs generalizing units rest with
  | case1 r =>
    obtain ⟨-, rfl⟩ := by simpa using h
    simp
  | case2 a b c d r ih | case3 c r _ ih =>
    obtain ⟨_, -, us, hr, -⟩ := by simpa [Option.bind_eq_some_iff] using h
    have := ih hr
    simp only [List.length_cons]
    omega
  | case4 => contradiction
  | case5 c r _ _ _ _ ih =>
    obtain ⟨us, hr, -⟩ := by simpa [Option.bind_eq_some_iff] using h
    have := ih hr
    simp only [List.length_cons]
    omega
  | case6 => contradiction

def isHighSurrogate (unit : Nat) : Bool :=
  0xD800 ≤ unit && unit < 0xDC00

def isLowSurrogate (unit : Nat) : Bool :=
  0xDC00 ≤ unit && unit < 0xE000

/-- The characters that units stand for. Surrogates come in pairs, high before low. -/
def decodeUnits : List Nat → Option (List Char)
  | [] => some []
  | [unit] =>
    if isHighSurrogate unit || isLowSurrogate unit then none else some [Char.ofNat unit]
  | high :: low :: rest =>
    if isHighSurrogate high then
      if isLowSurrogate low then
        (decodeUnits rest).map
          (Char.ofNat (0x10000 + (high - 0xD800) * 0x400 + (low - 0xDC00)) :: ·)
      else none
    else if isLowSurrogate high then none
    else (decodeUnits (low :: rest)).map (Char.ofNat high :: ·)

end VarRecovery.Json
