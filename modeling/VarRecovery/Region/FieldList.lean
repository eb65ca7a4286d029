import VarRecovery.Access.Cell
import VarRecovery.DataLayout

/-!
The fields of a struct that covers a range of addresses. Fields are placed one behind the other; bytes
that no field stores are filled with padding.
-/

set_option autoImplicit false

namespace VarRecovery

structure FieldList where
  start : Nat
  /-- The address behind the last field. -/
  stop : Nat
  fields : List (Nat × Ty)
deriving DecidableEq

namespace FieldList

def startAt (address : Nat) : FieldList :=
  ⟨address, address, []⟩

def types (l : FieldList) : List Ty :=
  l.fields.map Prod.snd

def isEmpty (l : FieldList) : Bool :=
  l.fields.isEmpty

def place (l : FieldList) (ty : Ty) (stop : Nat) : FieldList :=
  { l with stop, fields := l.fields ++ [(l.stop, ty)] }

/-- Fills the bytes up to an address with one array. -/
def fillTo (l : FieldList) (address : Nat) : FieldList :=
  if l.stop < address then l.place (.array .i8 (address - l.stop)) address else l

/-- Fills the bytes up to an address one by one. -/
def fillBytesTo (l : FieldList) (address : Nat) : FieldList :=
  { l with
    stop := max l.stop address
    fields := l.fields ++ (List.range (address - l.stop)).map fun n => (l.stop + n, .i8) }

/-- The bytes that a value of a type stores, of the `size` bytes it takes. -/
def storedBytes (L : DataLayout) (ty : Ty) (size : Nat) : Nat :=
  if ty.isFunc then L.pointerBytes else (L.size? ty).getD size

/-- Places a field that takes `size` bytes. Code is placed as a pointer to it. -/
def push (l : FieldList) (L : DataLayout) (ty : Ty) (size : Nat) : FieldList :=
  let stored := storedBytes L ty size
  -- An 80-bit float stores fewer bytes than it takes; the others are padding.
  let l := l.place ty.placed (Word.wrap (l.stop + min stored size))
  l.fillTo (Word.wrap (l.stop + (size - stored)))

/-- Goes on with `fields` at `offset`, where the strictest alignment so far is `align`. The offset
behind the last field and the strictest alignment of all, if each field is at its natural offset. -/
def naturalEnd? (L : DataLayout) (start : Nat) :
    (offset align : Nat) → List (Nat × Ty) → Option (Nat × Nat)
  | offset, align, [] => some (offset, align)
  | offset, align, (address, ty) :: fields => do
    let size ← L.size? ty
    let fieldAlign ← L.align? ty
    let offset := Word.roundUp offset fieldAlign
    if Word.wrap (start + offset) = address then
      naturalEnd? L start (Word.wrap (offset + size)) (max align fieldAlign) fields
    else none

/-- Whether an unpacked struct has its fields at their addresses and ends where the list does. -/
def isNatural (l : FieldList) (L : DataLayout) : Bool :=
  match naturalEnd? L l.start 0 1 l.fields with
  | some (offset, align) => Word.wrap (l.start + Word.roundUp offset align) = l.stop
  | none => false

end FieldList

end VarRecovery
