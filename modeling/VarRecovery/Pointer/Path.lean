import VarRecovery.DataLayout

/-!
Paths into types. An offset into what a pointer points to leads to a part of it: an index among values of
the type, then indices of elements and fields, and what is left where no part starts at the offset.
-/

set_option autoImplicit false

namespace VarRecovery

structure TyPath where
  indices : List Nat
  ty : Ty
  /-- How far the offset lies behind the start of that part. -/
  rest : Nat
deriving DecidableEq

namespace TyPath

def cons (index : Nat) (p : TyPath) : TyPath :=
  { p with indices := index :: p.indices }

end TyPath

namespace DataLayout

mutual

/-- The path from the start of a type to an offset in it. Fails where a part has no layout. -/
def descend (L : DataLayout) : Ty → Nat → Option TyPath
  | .array elem len, rest =>
    if rest = 0 then some ⟨[], .array elem len, 0⟩
    else
      match L.allocSize? elem with
      | none => none
      | some size =>
        if size = 0 ∨ len ≤ rest / size then some ⟨[], .array elem len, rest⟩
        else (L.descend elem (rest % size)).map (.cons (rest / size))
  | .vector elem len, rest =>
    if rest = 0 then some ⟨[], .vector elem len, 0⟩
    else
      match L.allocSize? elem with
      | none => none
      | some size =>
        if size = 0 ∨ len ≤ rest / size then some ⟨[], .vector elem len, rest⟩
        else (L.descend elem (rest % size)).map (.cons (rest / size))
  | .struct name fields packed, rest =>
    if rest = 0 ∨ fields = [] then some ⟨[], .struct name fields packed, rest⟩
    else
      match L.fieldOffsets? (.struct name fields packed) with
      | none => none
      | some offsets =>
        match L.descendField fields offsets 0 rest with
        | some path => path
        | none => some ⟨[], .struct name fields packed, rest⟩
  | ty, rest => some ⟨[], ty, rest⟩

/-- The path through the last of the fields that start at the offset or before, if one does. -/
def descendField (L : DataLayout) : List Ty → List Nat → Nat → Nat → Option (Option TyPath)
  | field :: fields, start :: starts, index, rest =>
    match L.descendField fields starts (index + 1) rest with
    | some path => some path
    | none =>
      if start ≤ rest then some ((L.descend field (rest - start)).map (.cons index)) else none
  | _, _, _, _ => none

end

/-- The path from a pointer to `pointee`: first the index of the value that the offset lies in. -/
def path? (L : DataLayout) (pointee : Ty) (offset : Nat) : Option TyPath := do
  let size ← L.allocSize? pointee
  -- All values of an empty type lie at the pointer itself.
  let first := if size = 0 then 0 else offset / size
  let path ← L.descend pointee (if size = 0 then offset else offset % size)
  return path.cons first

end DataLayout

end VarRecovery
