import VarRecovery.Access.Cell
import VarRecovery.DataLayout

/-!
Which of the cells at an address comes first. Cells are sorted by address, larger ones first; among equal
ones decides how often a type is accessed there, and declared types count more than any accesses.
-/

set_option autoImplicit false

namespace VarRecovery

/-- Counts stop here. -/
def maxCount : Nat := 0xFFFFFFFF

structure Popularity where
  observed : List (Nat × Ty)
  vars : AddressMap (Ty × Nat)
  funcs : AddressMap Ty
  /-- No declared variable is larger. -/
  maxVariableSize : Nat

namespace DataLayout

mutual

/-- Whether `want` is the type of a part of `ty`, `offset` bytes behind its start. -/
def isNested (L : DataLayout) (want : Ty) : Ty → Nat → Bool
  | .array elem len, offset =>
    (offset = 0 && Ty.array elem len = want) ||
      match L.allocSize? elem with
      | none => false
      | some size =>
        if size = 0 ∨ len ≤ offset / size then false
        else L.isNested want elem (offset % size)
  | .vector elem len, offset =>
    (offset = 0 && Ty.vector elem len = want) ||
      match L.allocSize? elem with
      | none => false
      | some size =>
        if size = 0 ∨ len ≤ offset / size then false
        else L.isNested want elem (offset % size)
  | .struct name fields packed, offset =>
    (offset = 0 && Ty.struct name fields packed = want) ||
      match L.fieldOffsets? (.struct name fields packed) with
      | none => false
      | some offsets => (L.isNestedField want fields offsets offset).getD false
  | ty, offset => offset = 0 && ty = want

/-- The same for the last of the fields that start at `offset` or before, if one does. -/
def isNestedField (L : DataLayout) (want : Ty) : List Ty → List Nat → Nat → Option Bool
  | field :: fields, start :: starts, offset =>
    match L.isNestedField want fields starts offset with
    | some found => some found
    | none => if start ≤ offset then some (L.isNested want field (offset - start)) else none
  | _, _, _ => none

end

end DataLayout

namespace Popularity

def declaredVariable : Nat := maxCount / 2

def declaredFunction : Nat := maxCount

/-- Counts accesses, without any declarations. -/
def ofCells (cells : List Cell) : Popularity where
  observed := cells.map fun c => (c.address, c.ty)
  vars := .empty
  funcs := .empty
  maxVariableSize := 0

def declareVariable (p : Popularity) (address : Nat) (ty : Ty) (size : Nat) : Popularity :=
  { p with
    vars := p.vars.insert address (ty, size)
    maxVariableSize := max p.maxVariableSize size }

def declareFunction (p : Popularity) (address : Nat) (ty : Ty) : Popularity :=
  { p with funcs := p.funcs.insert address ty }

def count (p : Popularity) (address : Nat) (ty : Ty) : Nat :=
  min (p.observed.count (address, ty)) maxCount

/-- Whether an address is that of a function of this type, or of the type a pointer to it has. -/
def isFunctionAt (p : Popularity) (address : Nat) (ty : Ty) : Bool :=
  match p.funcs.find? address with
  | some func => ty = func || ty = .ptr func
  | none => false

/-- Whether a declared variable has a part of this type at an address. -/
def isPartAt (p : Popularity) (L : DataLayout) (address : Nat) (ty : Ty) : Bool :=
  -- What starts earlier does not reach the address.
  (p.vars.between (address - p.maxVariableSize) address).any fun (start, whole, size) =>
    address < Word.wrap (start + size) && L.isNested ty whole (address - start)

def get (p : Popularity) (L : DataLayout) (address : Nat) (ty : Ty) : Nat :=
  let count := p.count address ty
  -- A declared function wins over all variables, and each of them over all accesses.
  if p.isFunctionAt address ty then min (count + declaredFunction) maxCount
  else if p.isPartAt L address ty then min (count + declaredVariable) maxCount
  else count

end Popularity

namespace Cell

/-- The alignment by which cells are ordered. -/
def align (L : DataLayout) (c : Cell) : Nat :=
  if c.ty.isFunc then L.pointerBytes else (L.align? c.ty).getD 1

/-- Whether a cell need not come after another. The first difference decides: a lower address, a larger
size, a pointer before another type, a stricter alignment, a greater popularity. -/
def precedes (p : Popularity) (L : DataLayout) (a b : Cell) : Bool :=
  if a.address ≠ b.address then a.address < b.address
  else if a.size ≠ b.size then b.size < a.size
  else if a.ty.isPtr ≠ b.ty.isPtr then a.ty.isPtr
  -- Only here is the layout of the types looked at.
  else if a.align L ≠ b.align L then b.align L < a.align L
  else p.get L b.address b.ty ≤ p.get L a.address a.ty

/-- Sorts cells. Those that differ in nothing that counts stay in order. -/
def sort (p : Popularity) (L : DataLayout) (cells : List Cell) : List Cell :=
  cells.mergeSort (precedes p L)

end Cell

end VarRecovery
