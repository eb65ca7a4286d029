import VarRecovery.Address
import VarRecovery.Calling.Decl

/-!
The program image that recovery consults: what lies at each address, where the stack starts, and which
functions and variables are declared. An address space maps ranges of addresses that share no byte.
-/

set_option autoImplicit false

namespace VarRecovery

inductive ByteKind where
  | stack
  | global
  | code
  | unknown
deriving DecidableEq, Repr

structure AddressSpace where
  ranges : AddressMap (Nat × ByteKind)

structure Image where
  kindAt : Nat → ByteKind
  /-- Where the stack pointer points on entry to a function. -/
  stackPointer : Option Nat
  funcs : List FunctionDecl
  vars : List VariableDecl

structure Overlap where
  start : Nat
  stop : Nat
  oldStart : Nat
  oldStop : Nat
deriving DecidableEq, Repr

namespace Overlap

def message (o : Overlap) : String :=
  "range " ++ addressText o.start ++ ".." ++ addressText o.stop ++ " overlaps "
    ++ addressText o.oldStart ++ ".." ++ addressText o.oldStop

end Overlap

namespace AddressSpace

def empty : AddressSpace := ⟨.empty⟩

/-- Maps `len` bytes from `start` on, or up to the last address if there are fewer. -/
def map (s : AddressSpace) (start len : Nat) (kind : ByteKind) : Except Overlap AddressSpace :=
  let stop := clipAddress (start + len)
  -- Old ranges share no byte, so the last that starts below the end is the one to look at.
  let extended : AddressSpace := ⟨s.ranges.insert start (stop, kind)⟩
  match s.ranges.lastBelow? stop with
  | none => .ok extended
  | some (oldStart, oldStop, _) =>
    if oldStop ≤ start then .ok extended else .error ⟨start, stop, oldStart, oldStop⟩

def kindAt (s : AddressSpace) (address : Nat) : ByteKind :=
  match s.ranges.lastBelow? (address + 1) with
  | some (_, stop, kind) => if address < stop then kind else .unknown
  | none => .unknown

end AddressSpace

end VarRecovery
