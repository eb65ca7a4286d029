import VarRecovery.Code.Module
import VarRecovery.Warning

/-!
The entities of a program by address: functions, and variables with their sizes. An address holds one
entity. A function takes the place of any other entity, a variable only that of a smaller variable.
-/

set_option autoImplicit false

namespace VarRecovery

inductive Entity where
  | func (id : FuncId)
  | var (id : GlobalId)
deriving DecidableEq

structure EntityTable where
  entities : AddressMap (Entity × Nat)
  /-- No variable that was placed is larger. -/
  maxVariableSize : Nat

namespace Module

def nameOf (m : Module) : Entity → String
  | .func id => m.funcName id
  | .var id => ((m.global? id).map GlobalVar.symbol).getD ""

end Module

namespace EntityTable

def empty : EntityTable := ⟨.empty, 0⟩

def get? (t : EntityTable) (address : Nat) : Option Entity :=
  (t.entities.find? address).map Prod.fst

def entries (t : EntityTable) : List (Nat × Entity) :=
  t.entities.entries.map fun (address, entity, _) => (address, entity)

def insertFunc (t : EntityTable) (m : Module) (address : Nat) (f : FuncId) :
    EntityTable × List Warning :=
  let warnings := match t.get? address with
    | none => []
    | some old =>
      if old = .func f then []
      else [.entityReplaced (m.funcName f) (m.nameOf old) address]
  ({ t with entities := t.entities.insert address (.func f, m.layout.pointerBytes) }, warnings)

def putVar (t : EntityTable) (address : Nat) (id : GlobalId) (size : Nat) : EntityTable where
  entities := t.entities.insert address (.var id, size)
  maxVariableSize := max t.maxVariableSize size

/-- Places a variable if its address is free or holds a smaller one, and tells whether it is there. -/
def insertVar (t : EntityTable) (m : Module) (address : Nat) (id : GlobalId) (size : Nat) :
    EntityTable × Bool × List Warning :=
  let name := m.nameOf (.var id)
  match t.entities.find? address with
  | none => (t.putVar address id size, true, [])
  | some (.func f, _) => (t, false, [.functionInPlace name (m.funcName f) address])
  | some (.var old, oldSize) =>
    -- The same variable keeps the size it has, which may have grown since.
    if old = id then (t, true, [])
    else if size ≤ oldSize then
      (t, false, [.largerInPlace name (m.nameOf (.var old)) address])
    else
      (t.putVar address id size, true, [.smallerReplaced name (m.nameOf (.var old)) address])

/-- The variable of an entry and where it starts, if it covers an address. -/
def coveredBy? (address : Nat) : Nat × Entity × Nat → Option (Nat × GlobalId × Nat)
  | (start, .var id, size) =>
    if address < clipAddress (start + size) then some (start, id, size) else none
  | (_, .func _, _) => none

/-- The variable that covers an address, the last to start if there are several, with its start and its
size. -/
def covering? (t : EntityTable) (address : Nat) : Option (Nat × GlobalId × Nat) :=
  -- What starts earlier does not reach the address.
  (t.entities.between (address - t.maxVariableSize) address).findSome? (coveredBy? address)

def resize (t : EntityTable) (address : Nat) (size : Nat) : EntityTable :=
  match t.entities.find? address with
  | some (entity, _) =>
    { entities := t.entities.insert address (entity, size)
      maxVariableSize := max t.maxVariableSize size }
  | none => t

end EntityTable

end VarRecovery
