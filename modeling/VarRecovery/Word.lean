/-!
Arithmetic on words of 64 bits. Sizes, addresses and offsets are numbers, but what is computed from them
has to fit into a word: of a larger result only the low 64 bits are kept.
-/

set_option autoImplicit false

namespace VarRecovery.Word

/-- How many words there are. -/
def count : Nat := 0x10000000000000000

/-- The low 64 bits of a number. -/
def wrap (n : Nat) : Nat :=
  n % count

/-- The low 64 bits of a number, the highest of them its sign. -/
def wrapSigned (n : Int) : Int :=
  n.bmod count

/-- The least multiple of `a` that is not below `n`, as a word. -/
def roundUp (n a : Nat) : Nat :=
  wrap ((n + a - 1) / a * a)

theorem wrap_lt (n : Nat) : wrap n < count :=
  Nat.mod_lt n (by decide)

theorem wrap_of_lt {n : Nat} (h : n < count) : wrap n = n :=
  Nat.mod_eq_of_lt h

end VarRecovery.Word
