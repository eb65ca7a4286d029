import VarRecovery.Code.Id
import VarRecovery.RecoveryError
import VarRecovery.Ty.Basic

/-!
Cells: accesses to memory at constant addresses.
-/

set_option autoImplicit false

namespace VarRecovery

structure Access where
  isLoad : Bool
  isStore : Bool
  isAtomic : Bool
  isVolatile : Bool
deriving DecidableEq, Repr

/-- An access to memory at a constant address, and the operand that holds the address. -/
structure Cell where
  func : FuncId
  address : Nat
  ty : Ty
  size : Nat
  access : Access
  /-- The instruction that uses `value`. -/
  user : InstId
  value : ValueId
deriving DecidableEq

/-- The cells of a program: those on the stack by function, in order of each function's first, and
the others. -/
structure Cells where
  stack : List (FuncId × List Cell)
  globals : List Cell

namespace Access

/-- An access of which only the address is known. -/
def plain : Access := ⟨false, false, false, false⟩

end Access

namespace Cell

/-- The address behind the last byte. -/
def stop (c : Cell) : Except RecoveryError Nat :=
  if c.address + c.size ≤ maxAddress then .ok (c.address + c.size)
  else .error (.addressOverflow c.address c.size)

end Cell

namespace Cells

def empty : Cells := ⟨[], []⟩

def size (cs : Cells) : Nat :=
  cs.globals.length + (cs.stack.flatMap Prod.snd).length

def stackOf (cs : Cells) (f : FuncId) : List Cell :=
  (cs.stack.lookup f).getD []

/-- Puts a cell behind those of its function. -/
def addTo (c : Cell) : List (FuncId × List Cell) → List (FuncId × List Cell)
  | [] => [(c.func, [c])]
  | (f, cells) :: rest =>
    if f = c.func then (f, cells ++ [c]) :: rest else (f, cells) :: addTo c rest

def addStack (cs : Cells) (c : Cell) : Cells :=
  { cs with stack := addTo c cs.stack }

def addGlobal (cs : Cells) (c : Cell) : Cells :=
  { cs with globals := cs.globals ++ [c] }

end Cells

end VarRecovery
