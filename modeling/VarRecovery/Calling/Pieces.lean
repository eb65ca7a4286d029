import VarRecovery.Calling.Register

/-!
The pieces in which registers return a struct. Integer and pointer fields that share an eight-byte chunk
of the struct are returned together, as one integer.
-/

set_option autoImplicit false

namespace VarRecovery

structure FieldSpan where
  ty : Ty
  offset : Nat
  size : Nat
deriving DecidableEq

namespace FieldSpan

def chunkBytes : Nat := 8

def chunk (s : FieldSpan) : Nat :=
  s.offset / chunkBytes

/-- Whether a field has bytes, and all of them in one chunk. -/
def fitsChunk (s : FieldSpan) : Bool :=
  s.size ≠ 0 && s.chunk = Word.wrap (s.offset + s.size - 1) / chunkBytes

def isWord (s : FieldSpan) : Bool :=
  s.ty.isIntegral || s.ty.isPtr

/-- The bytes from the start of the first field to the end of the last. -/
def extent : List FieldSpan → Nat
  | [] => 0
  | first :: rest =>
    let last := rest.getLast?.getD first
    last.offset + last.size - first.offset

/-- The pieces for the fields of one chunk: one integer if there are several words and nothing else. -/
def merge (group : List FieldSpan) : List Ty :=
  if 1 < group.length ∧ group.all isWord then
    match Ty.intOfSize? (extent group).nextPowerOfTwo with
    | some ty => [ty]
    | none => group.map FieldSpan.ty
  else group.map FieldSpan.ty

end FieldSpan

namespace DataLayout

def fieldSpans? (L : DataLayout) (fields : List Ty) (packed : Bool) : Option (List FieldSpan) := do
  let (offsets, _) ← L.placeFields packed 0 fields
  (fields.zip offsets).mapM fun (ty, offset) => do return ⟨ty, offset, ← L.size? ty⟩

/-- The fields of a struct with those of one chunk merged. A struct with an empty field or with one
that crosses from chunk to chunk stays as it is. -/
def mergeFields? (L : DataLayout) (fields : List Ty) (packed : Bool) : Option (List Ty) := do
  let spans ← L.fieldSpans? fields packed
  -- Spans are in the order of their offsets, so those of one chunk stand together.
  if spans.all FieldSpan.fitsChunk then
    return (spans.splitBy fun a b => a.chunk = b.chunk).flatMap FieldSpan.merge
  else return fields

end DataLayout

end VarRecovery
