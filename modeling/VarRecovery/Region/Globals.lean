import VarRecovery.Access.Popularity
import VarRecovery.Recovering
import VarRecovery.Region.EntityTable
import VarRecovery.Region.EntryCursor
import VarRecovery.Region.Run
import VarRecovery.Ty.Text

/-!
Global variables. Each run of cells becomes a variable, unless a declared one holds all of it; each constant
address then becomes the address of a variable or function, or of a place in a variable.
-/

set_option autoImplicit false

namespace VarRecovery

structure BuiltGlobals where
  created : Nat
  pointers : List (FuncId × ValueId)

namespace Popularity

def declareEntity (m : Module) (p : Popularity) : Nat × Entity → Popularity
  | (address, .func f) =>
    match m.func? f with
    | some func => p.declareFunction address func.signature.ty
    | none => p
  | (address, .var id) =>
    match m.global? id with
    | some v => p.declareVariable address v.ty ((m.layout.allocSize? v.ty).getD 0)
    | none => p

/-- Counts cells, with the entities of a table declared. -/
def ofTable (m : Module) (t : EntityTable) (cells : List Cell) : Popularity :=
  t.entries.foldl (declareEntity m) (ofCells cells)

end Popularity

namespace Run

def size (r : Run) : Nat :=
  r.fields.stop - r.fields.start

/-- Whether the struct of a run has to be packed. -/
def isPacked (L : DataLayout) (r : Run) : Bool :=
  r.packed || !r.fields.isNatural L

def symbol (r : Run) : String :=
  "gvar_" ++ String.ofList (Nat.toDigits 16 r.fields.start)

/-- Whether the variable that covers the start of a run holds all of it. -/
def isCovered (r : Run) (t : EntityTable) : Bool :=
  match t.covering? r.fields.start with
  | some (start, _, size) => r.fields.stop ≤ clipAddress (start + size)
  | none => false

def retype (r : Run) (m : Module) (t : EntityTable) (id : GlobalId) (v : GlobalVar) :
    Module × EntityTable × List Warning :=
  if (m.layout.allocSize? v.ty).getD 0 < r.size then
    let (types, ty) := m.types.addFresh (v.symbol ++ ".ty") r.fields.types (r.isPacked m.layout)
    (({ m with types }).setGlobalTy id ty, t.resize r.fields.start r.size,
      [.retyped v.symbol r.size v.ty.shown])
  else (m, t, [])

def create (r : Run) (m : Module) (t : EntityTable) : Module × EntityTable × Bool × List Warning :=
  let (types, ty) := m.types.addFresh (r.symbol ++ ".ty") r.fields.types (r.isPacked m.layout)
  let (m, id) := ({ m with types }).pushGlobal ⟨m.freshSymbol r.symbol, ty, .internal, false⟩
  let (t, created, warnings) := t.insertVar m r.fields.start id r.size
  (m, t, created, warnings)

/-- Sees to it that a run has an entity, and tells whether a variable was made for it. -/
def declare (r : Run) (m : Module) (t : EntityTable) : Module × EntityTable × Bool × List Warning :=
  match t.get? r.fields.start with
  -- The bytes of a function are code, whatever is read from them.
  | some (.func _) => (m, t, false, [])
  | some (.var id) =>
    match m.global? id with
    | some v =>
      let (m, t, warnings) := r.retype m t id v
      (m, t, false, warnings)
    | none => (m, t, false, [])
  | none => if r.isCovered t then (m, t, false, []) else r.create m t

/-- The same for several runs. Counts the variables that were made. -/
def declareAll : List Run → Module → EntityTable → Module × EntityTable × Nat × List Warning
  | [], m, t => (m, t, 0, [])
  | r :: rs, m, t =>
    let (m, t, created, warnings) := r.declare m t
    let (m, t, count, rest) := declareAll rs m t
    (m, t, count + created.toNat, warnings ++ rest)

end Run

namespace Module

def addGlobalValue (m : Module) (f : FuncId) (id : GlobalId) : Module × ValueId :=
  match m.func? f, m.global? id with
  | some func, some v =>
    let (graph, v) := func.graph.addGlobal id (.ptr v.ty)
    (m.updateFunc f fun _ => { func with graph }, v)
  | _, _ => (m, ⟨0⟩)

def addFuncValue (m : Module) (f : FuncId) (id : FuncId) : Module × ValueId :=
  match m.func? f, m.func? id with
  | some func, some target =>
    let (graph, v) := func.graph.addFunc id target.signature.ptrTy
    (m.updateFunc f fun _ => { func with graph }, v)
  | _, _ => (m, ⟨0⟩)

end Module

/-- Global cells that are being redirected: the address of each cell so far by its function and type, and that
of each entity. -/
structure GlobalRedirection where
  module : Module
  cursor : EntryCursor
  memo : List ((FuncId × Nat × Ty) × ValueId)
  bases : List ((FuncId × ValueId × Ty) × ValueId)
  pointers : List (FuncId × ValueId)

namespace GlobalRedirection

/-- The address of the entity that holds an address, and how far behind its start that is. -/
def entity? (t : EntityTable) (s : GlobalRedirection) (f : FuncId) (address : Nat) :
    Option (GlobalRedirection × ValueId × Nat) :=
  match t.get? address with
  | some (.func id) =>
    let (module, ptr) := s.module.addFuncValue f id
    some ({ s with module }, ptr, 0)
  | some (.var id) =>
    let (module, ptr) := s.module.addGlobalValue f id
    some ({ s with module }, ptr, 0)
  | none =>
    match t.covering? address with
    | some (start, id, _) =>
      let (module, ptr) := s.module.addGlobalValue f id
      some ({ s with module }, ptr, address - start)
    | none => none

def base (s : GlobalRedirection) (f : FuncId) (ptr : ValueId) (ty : Ty) :
    Except RecoveryError (GlobalRedirection × ValueId) :=
  match s.bases.lookup (f, ptr, ty) with
  | some v => .ok (s, v)
  | none => do
    let (module, cursor, v) ← s.cursor.insert s.module f (.cast .ptrToInt ptr ty) ty
    return ({ s with module, cursor, bases := ((f, ptr, ty), v) :: s.bases }, v)

def displace (s : GlobalRedirection) (f : FuncId) (v : ValueId) (offset : Nat) (ty : Ty) :
    Except RecoveryError (GlobalRedirection × Option ValueId) :=
  if offset = 0 then .ok (s, some v)
  else
    match Imm.ofInt? ty offset, s.module.func? f with
    | some i, some func => do
      let (func, imm) := func.addImm i
      let module := s.module.updateFunc f fun _ => func
      let (module, cursor, sum) ← s.cursor.insert module f (.binary .add v imm) ty
      return ({ s with module, cursor }, some sum)
    | _, _ => .ok (s, none)

/-- The address of a cell as an integer of type `ty`, if an entity holds it. -/
def resolve (t : EntityTable) (s : GlobalRedirection) (c : Cell) (ty : Ty) :
    Except RecoveryError (GlobalRedirection × Option ValueId) :=
  match s.memo.lookup (c.func, c.address, ty) with
  | some v => .ok (s, some v)
  | none =>
    match s.entity? t c.func c.address with
    | none => .ok (s, none)
    | some (s, ptr, offset) => do
      let (s, v) ← s.base c.func ptr ty
      let (s, int) ← s.displace c.func v offset ty
      match int with
      | none => return (s, none)
      | some int =>
        return ({ s with
          memo := ((c.func, c.address, ty), int) :: s.memo
          pointers := s.pointers ++ [(c.func, ptr)] }, some int)

def redirect (t : EntityTable) (s : GlobalRedirection) (c : Cell) :
    Except RecoveryError GlobalRedirection := do
  let (s, int) ← s.resolve t c ((s.module.graph c.func).ty c.value)
  match int with
  | none => return s
  | some int =>
    return { s with module := s.module.updateGraph c.func (·.replaceOperand c.user c.value int) }

def redirectAll (t : EntityTable) (cells : List Cell) (s : GlobalRedirection) :
    Except RecoveryError GlobalRedirection :=
  cells.foldlM (redirect t) s

end GlobalRedirection

namespace Module

def buildGlobals (m : Module) (t : EntityTable) (cells : List Cell) (cursor : EntryCursor) :
    Recovering (Module × EntityTable × EntryCursor × BuiltGlobals) := do
  let cells := Cell.sort (.ofTable m t cells) m.layout cells
  -- All variables are there before the first cell is redirected, so their types are final.
  let runs ← Run.ofCells m.layout cells
  let (m, t, created, warnings) := Run.declareAll runs m t
  Recovering.warnAll warnings
  let s ← GlobalRedirection.redirectAll t cells ⟨m, cursor, [], [], []⟩
  return (s.module, t, s.cursor, ⟨created, s.pointers⟩)

end Module

end VarRecovery
