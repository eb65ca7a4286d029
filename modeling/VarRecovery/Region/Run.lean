import VarRecovery.Region.FieldList

/-!
Runs: stretches of addresses that cells cover without a gap. A cell that starts in a run belongs to it; one
that starts where a run ends extends it by a field.
-/

set_option autoImplicit false

namespace VarRecovery

structure Run where
  fields : FieldList
  /-- Whether some cell starts in the run and ends behind it, so that no field stands for it. -/
  packed : Bool
deriving DecidableEq

namespace Run

def ofCell (L : DataLayout) (c : Cell) : Run :=
  ⟨(FieldList.startAt c.address).push L c.ty c.size, false⟩

/-- Adds a cell that ends at `stop` to a run, or starts the next run with it. -/
def extend (L : DataLayout) (r : Run) (c : Cell) (stop : Nat) : List Run :=
  if c.address < r.fields.stop then
    -- The cell has no field of its own, so the bytes behind the run belong to no type.
    if r.fields.stop < stop then [⟨r.fields.fillBytesTo stop, true⟩] else [r]
  else if c.address = r.fields.stop then [{ r with fields := r.fields.push L c.ty c.size }]
  else [r, ofCell L c]

def addCell (L : DataLayout) (runs : List Run) (c : Cell) : Except RecoveryError (List Run) := do
  let stop ← c.stop
  match runs.getLast? with
  | none => return [ofCell L c]
  | some r => return runs.dropLast ++ r.extend L c stop

def ofCells (L : DataLayout) (cells : List Cell) : Except RecoveryError (List Run) :=
  cells.foldlM (addCell L) []

end Run

end VarRecovery
