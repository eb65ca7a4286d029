import VarRecovery.Target
import VarRecovery.Ty.Basic
import VarRecovery.Word

/-!
Where values lie in memory: the size and the alignment of a type, and the offsets of the fields of a
struct. The unit type and functions have no place in memory, nor has a type made from them. Sizes and
offsets are words, so those of huge types wrap around.
-/

set_option autoImplicit false

namespace VarRecovery

structure DataLayout where
  pointerBytes : Nat
  maxScalarAlign : Nat
  f80Align : Nat
deriving DecidableEq, Repr

namespace DataLayout

def ofArchitecture : Architecture → DataLayout
  | .x86 => { pointerBytes := 4, maxScalarAlign := 4, f80Align := 4 }
  | .x86_64 => { pointerBytes := 8, maxScalarAlign := 8, f80Align := 16 }

def pointerWidth (L : DataLayout) : IntWidth :=
  if L.pointerBytes = 4 then .i32 else .i64

def pointerInt (L : DataLayout) : Ty :=
  .int L.pointerWidth

/-- A vector is aligned to its size, rounded up to a power of two of at most 16. If no word holds that
power, 0 stands for it. -/
def vectorAlign (size : Nat) : Nat :=
  if size ≤ 1 then 1
  else if size ≤ 2 then 2
  else if size ≤ 4 then 4
  else if size ≤ 8 then 8
  else if size ≤ 0x8000000000000000 then 16
  else 0

mutual

def size? (L : DataLayout) : Ty → Option Nat
  | .int w => some w.bytes
  | .float w => some w.bytes
  | .unit => none
  | .ptr _ => some L.pointerBytes
  | .array elem len => do
    let size ← L.size? elem
    let align ← L.align? elem
    return Word.wrap (Word.roundUp size align * len)
  | .vector elem len => do
    let size ← L.size? elem
    return Word.wrap (size * len)
  | .struct _ fields packed => do
    let (_, stop) ← L.placeFields packed 0 fields
    -- A packed struct is aligned to one byte, so there is nothing to round.
    if packed then return stop
    let align ← L.maxAlign fields
    return Word.roundUp stop align
  | .func .. => none

def align? (L : DataLayout) : Ty → Option Nat
  | .int w => some (min w.bytes L.maxScalarAlign)
  | .float .f80 => some L.f80Align
  | .float w => some (min w.bytes L.maxScalarAlign)
  | .unit => none
  | .ptr _ => some L.pointerBytes
  | .array elem _ => L.align? elem
  | .vector elem len => do
    let size ← L.size? elem
    return vectorAlign (Word.wrap (size * len))
  | .struct _ fields packed => if packed then some 1 else L.maxAlign fields
  | .func .. => none

/-- The strictest alignment among the fields of a struct, which is its own. -/
def maxAlign (L : DataLayout) : List Ty → Option Nat
  | [] => some 1
  | field :: fields => do
    let align ← L.align? field
    let rest ← L.maxAlign fields
    return max align rest

def placeFields (L : DataLayout) (packed : Bool) (start : Nat) : List Ty → Option (List Nat × Nat)
  | [] => some ([], start)
  | field :: fields => do
    let align ← L.align? field
    let size ← L.size? field
    let offset := if packed then start else Word.roundUp start align
    -- A field takes the same bytes as in an array, also in a packed struct.
    let (offsets, stop) ← L.placeFields packed (Word.wrap (offset + Word.roundUp size align)) fields
    return (offset :: offsets, stop)

end

/-- The size of a type in an array: its size, rounded up to its alignment. -/
def allocSize? (L : DataLayout) (ty : Ty) : Option Nat := do
  let size ← L.size? ty
  let align ← L.align? ty
  return Word.roundUp size align

def fieldOffsets? (L : DataLayout) : Ty → Option (List Nat)
  | .struct _ fields packed => (L.placeFields packed 0 fields).map Prod.fst
  | _ => none

def fieldOffset? (L : DataLayout) (ty : Ty) (index : Nat) : Option Nat := do
  let offsets ← L.fieldOffsets? ty
  offsets[index]?

end DataLayout

namespace Target

def dataLayout (t : Target) : DataLayout :=
  .ofArchitecture t.architecture

end Target

end VarRecovery
