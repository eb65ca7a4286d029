import VarRecovery.Access.Popularity
import VarRecovery.Recovering
import VarRecovery.Region.EntryCursor
import VarRecovery.Region.FieldList
import VarRecovery.Ty.Text

/-!
Stack frames. The cells of a function on the stack become the fields of a packed struct that it allocates
on entry, and each constant stack address becomes an address in that struct.
-/

set_option autoImplicit false

namespace VarRecovery

structure FrameLayout where
  base : Nat
  fields : FieldList
  /-- How many cells start in a field that was placed before them. -/
  skipped : Nat

structure Frame where
  ty : Ty
  /-- The address of the frame, and those made from it. -/
  pointers : List ValueId

namespace FrameLayout

/-- Places a cell, unless its first byte is taken. `highest` is the end of all cells so far. -/
def addCell (L : DataLayout) (l : FrameLayout × Nat) (c : Cell) : Recovering (FrameLayout × Nat) := do
  let (l, highest) := l
  let stop ← c.stop
  -- Cells come in order, so a cell that starts below the end overlaps a field.
  if c.address < l.fields.stop then
    Recovering.warn (.overlappingCell c.address c.ty.shown l.fields.stop)
    return ({ l with skipped := l.skipped + 1 }, max highest stop)
  else
    return ({ l with fields := (l.fields.fillTo c.address).push L c.ty c.size }, max highest stop)

def baseOf (cells : List Cell) (stackPointer redzone : Nat) : Nat :=
  cells.foldl (fun low c => min low c.address) stackPointer - redzone

/-- The frame of sorted cells. It also covers the address that the stack pointer has on entry. -/
def ofCells (L : DataLayout) (cells : List Cell) (stackPointer redzone : Nat) :
    Recovering FrameLayout := do
  let base := baseOf cells stackPointer redzone
  let (l, highest) ← cells.foldlM (addCell L) (⟨base, .startAt base, 0⟩, stackPointer)
  return { l with fields := l.fields.fillTo highest }

end FrameLayout

/-- A frame whose cells are being redirected to it: the address of each cell so far by its type, and the
pointers made for them. -/
structure FrameRedirection where
  module : Module
  cursor : EntryCursor
  memo : List ((Nat × Ty) × ValueId)
  pointers : List ValueId

namespace FrameRedirection

def address (s : FrameRedirection) (f : FuncId) (base : Nat) (bytes : ValueId) (c : Cell) (ty : Ty) :
    Except RecoveryError (FrameRedirection × ValueId) :=
  match s.memo.lookup (c.address, ty) with
  | some v => .ok (s, v)
  | none => do
    let (module, offset) := s.module.addOffset f (c.address - base : Nat)
    let (module, cursor, ptr) ← s.cursor.insert module f (.gep bytes [offset]) (.ptr .i8)
    let (module, cursor, int) ← cursor.insert module f (.cast .ptrToInt ptr ty) ty
    return (⟨module, cursor, ((c.address, ty), int) :: s.memo, s.pointers ++ [ptr]⟩, int)

def redirect (f : FuncId) (base : Nat) (bytes : ValueId) (s : FrameRedirection) (c : Cell) :
    Except RecoveryError FrameRedirection := do
  let (s, int) ← s.address f base bytes c ((s.module.graph f).ty c.value)
  return { s with module := s.module.updateGraph f (·.replaceOperand c.user c.value int) }

def redirectAll (f : FuncId) (base : Nat) (bytes : ValueId) (cells : List Cell)
    (s : FrameRedirection) : Except RecoveryError FrameRedirection :=
  cells.foldlM (redirect f base bytes) s

end FrameRedirection

namespace Module

def buildFrame (m : Module) (f : FuncId) (cells : List Cell) (stackPointer : Option Nat)
    (redzone : Nat) (cursor : EntryCursor) : Recovering (Module × EntryCursor × Frame) := do
  let name := m.funcName f
  match stackPointer with
  | none => throw (.missingStackPointer name)
  | some stackPointer =>
    let cells := Cell.sort (.ofCells cells) m.layout cells
    let layout ← FrameLayout.ofCells m.layout cells stackPointer redzone
    let (types, ty) := m.types.addFresh (name ++ ".frame") layout.fields.types true
    let m := { m with types }
    let (m, cursor, frame) ← cursor.insert m f (.alloca ty) (.ptr ty)
    -- Cells are addressed by bytes, which the frame's fields do not divide.
    let (m, cursor, bytes) ← cursor.insert m f (.cast .bitcast frame (.ptr .i8)) (.ptr .i8)
    let s ← FrameRedirection.redirectAll f layout.base bytes cells ⟨m, cursor, [], [frame]⟩
    return (s.module, s.cursor, ⟨ty, s.pointers⟩)

end Module

end VarRecovery
