import VarRecovery.Access.Trace
import VarRecovery.Code.Module
import VarRecovery.Pointer.Path

/-!
Displacements: sums of a pointer's address and a constant become addresses of parts of what the pointer
points to.
-/

set_option autoImplicit false

namespace VarRecovery

structure Displacement where
  sum : InstId
  base : ValueId
deriving DecidableEq

namespace Graph

def isPtrToInt (g : Graph) (i : InstId) : Bool :=
  match g.inst? i with
  | some (.cast .ptrToInt _ _) => true
  | _ => false

def addend? (g : Graph) (sum : InstId) (base : ValueId) : Option ValueId :=
  match g.inst? sum with
  | some (.binary .add lhs rhs) => some (if lhs = base then rhs else lhs)
  | _ => none

def displacement? (g : Graph) (sum : InstId) (base : ValueId) : Option Int := do
  return (← g.imm? (← g.addend? sum base)).toInt

end Graph

namespace Func

def codeUsers (f : Func) (v : ValueId) : List InstId :=
  (f.graph.users v).filter (· ∈ f.code)

def addresses (f : Func) (ptr : ValueId) : List ValueId :=
  ((f.codeUsers ptr).filter f.graph.isPtrToInt).filterMap f.graph.result?

/-- The sums of an address of a pointer and a constant that is not negative. -/
def displacements (f : Func) (ptr : ValueId) : List Displacement :=
  (f.addresses ptr).flatMap fun base =>
    (f.codeUsers base).filterMap fun sum =>
      match f.graph.displacement? sum base with
      | some n => if 0 ≤ n then some ⟨sum, base⟩ else none
      | none => none

def addOffsets (L : DataLayout) : Func → List Nat → Func × List ValueId
  | f, [] => (f, [])
  | f, n :: ns =>
    let (f, v) := f.addImm (.ofInt L.pointerWidth n)
    let (f, vs) := addOffsets L f ns
    (f, v :: vs)

/-- How the rest of an offset is indexed: by values of the type that the sum is cast to a pointer to, if
they divide it, and else by bytes. The type of the pointer and the size of what it points to. -/
def restStep (L : DataLayout) (castTy : Option Ty) (rest : Nat) : Ty × Nat :=
  let bytes : Ty × Nat := (.ptr .i8, 1)
  match castTy with
  | some (.ptr pointee) =>
    match L.allocSize? pointee with
    | some size => if 0 < size ∧ rest % size = 0 then (.ptr pointee, size) else bytes
    | none => bytes
  | _ => bytes

/-- Writes the address of what a path leads to from `ptr`, in front of `anchor`: a pointer to the part,
and a second one if there is a rest. The pointers, the address last. -/
def insertPath (L : DataLayout) (f : Func) (ptr : ValueId) (path : TyPath) (castTy : Option Ty)
    (anchor : InstId) : Func × List ValueId × ValueId :=
  let (f, indices) := addOffsets L f path.indices
  let (f, part) := f.insert (.gep ptr indices) (.ptr path.ty) (.before anchor)
  if path.rest = 0 then (f, [part], part)
  else
    let (ty, size) := restStep L castTy path.rest
    let (f, base) := f.insert (.cast .bitcast part ty) ty (.before anchor)
    let (f, index) := f.addImm (.ofInt L.pointerWidth (path.rest / size : Nat))
    let (f, v) := f.insert (.gep base [index]) ty (.before anchor)
    (f, [part, v], v)

/-- Puts the address of a part in the place of a sum, and gives the new pointers. Does nothing if what
the pointer points to has no layout. -/
def foldSum (L : DataLayout) (f : Func) (ptr : ValueId) (d : Displacement) :
    Option (Func × List ValueId) := do
  let offset ← f.graph.displacement? d.sum d.base
  let sum ← f.graph.result? d.sum
  let pointee ← (f.graph.ty ptr).pointee?
  let path ← L.path? pointee (Word.wrap offset.toNat)
  -- Nothing fails from here on, so what is written stays whole.
  let ty := f.graph.ty sum
  let (f, pointers, v) := insertPath L f ptr path (f.graph.pointerCastTy? sum) d.sum
  let (f, int) := f.insert (.cast .ptrToInt v ty) ty (.before d.sum)
  return ((f.updateGraph (·.replaceUses sum int)).remove d.sum, pointers)

end Func

end VarRecovery
