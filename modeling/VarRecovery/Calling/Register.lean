import VarRecovery.DataLayout

/-!
Registers as places for values. A slot is one register that goes by several names, each of which takes
values of certain sizes and kinds; a value goes into the first free slot with a name that takes it.
-/

set_option autoImplicit false

namespace VarRecovery

inductive SizeClass where
  | bits8
  | bits16
  | bits32
  | bits64
  | bits80
  | bits128
deriving DecidableEq, Repr

inductive ValueKind where
  | int
  | ptr
  | float
  | vector
deriving DecidableEq, Repr

/-- What register allocation knows of a value. -/
structure ValueClass where
  size : SizeClass
  kind : ValueKind
deriving DecidableEq, Repr

structure RegisterVariant where
  register : String
  kinds : List ValueKind
  sizes : List SizeClass
deriving DecidableEq, Repr

/-- A register. Its names are tried in order. -/
structure RegisterSlot where
  variants : List RegisterVariant
deriving DecidableEq, Repr

structure Allocation where
  slots : List RegisterSlot
  reserved : List Bool
deriving DecidableEq, Repr

namespace SizeClass

def all : List SizeClass := [.bits8, .bits16, .bits32, .bits64, .bits80, .bits128]

def bits : SizeClass → Nat
  | .bits8 => 8
  | .bits16 => 16
  | .bits32 => 32
  | .bits64 => 64
  | .bits80 => 80
  | .bits128 => 128

/-- The least class that holds `n` bits. No class holds nothing or more than 128 bits. -/
def ofBits? (n : Nat) : Option SizeClass :=
  if n = 0 then none else all.find? (n ≤ ·.bits)

end SizeClass

namespace ValueKind

def all : List ValueKind := [.int, .ptr, .float, .vector]

end ValueKind

/-- Whether a mask holds every element of another, which must not be empty. -/
def maskCovers {α : Type} [DecidableEq α] (mask other : List α) : Bool :=
  !other.isEmpty && other.all (· ∈ mask)

namespace ValueClass

/-- The bits and the kind of a number, a pointer or a vector. Other values fit into no register. -/
def width? (L : DataLayout) : Ty → Option (Nat × ValueKind)
  | .int w => some (w.bits, .int)
  | .float w => some (w.bits, .float)
  | .ptr _ => some (L.pointerBytes * 8, .ptr)
  | .vector elem len => (L.size? (.vector elem len)).map fun size => (Word.wrap (size * 8), .vector)
  | _ => none

def ofTy? (L : DataLayout) (ty : Ty) : Option ValueClass := do
  let (bits, kind) ← width? L ty
  let size ← SizeClass.ofBits? bits
  return ⟨size, kind⟩

end ValueClass

namespace RegisterVariant

def accepts (v : RegisterVariant) (c : ValueClass) : Bool :=
  maskCovers v.sizes [c.size] && maskCovers v.kinds [c.kind]

end RegisterVariant

namespace RegisterSlot

def select? (s : RegisterSlot) (c : ValueClass) : Option RegisterVariant :=
  s.variants.find? (·.accepts c)

/-- The first slot that is free and takes a value, with the name it takes it under. A slot that
`reserved` does not reach is free. -/
def firstFit? (slots : List RegisterSlot) (reserved : List Bool) (c : ValueClass) :
    Option (Nat × String) :=
  slots.zipIdx.findSome? fun (slot, index) =>
    if reserved.getD index false then none
    else (slot.select? c).map fun v => (index, v.register)

end RegisterSlot

namespace Allocation

def start (slots : List RegisterSlot) : Allocation :=
  { slots, reserved := List.replicate slots.length false }

def allocate? (a : Allocation) (c : ValueClass) : Option (String × Allocation) := do
  let (index, register) ← RegisterSlot.firstFit? a.slots a.reserved c
  return (register, { a with reserved := a.reserved.set index true })

def taken (a : Allocation) : Nat :=
  a.reserved.count true

end Allocation

end VarRecovery
