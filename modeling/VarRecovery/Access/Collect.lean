import VarRecovery.Access.Cell
import VarRecovery.Access.Intrinsic
import VarRecovery.Access.Materialize
import VarRecovery.Access.Trace
import VarRecovery.Image
import VarRecovery.Ty.Text

/-!
Collecting cells. A call of an intrinsic accesses memory, and so may what is done with a value that is cast
to a pointer or passed as one. Each constant that the address is computed from makes a cell, once for each
type it is accessed as.
-/

set_option autoImplicit false

namespace VarRecovery

/-- A use of an address: by what instruction, and what is accessed there. -/
structure AddressUse where
  user : InstId
  address : ValueId
  ty : Ty
  access : Access

/-- The cells found so far. `seen` holds what makes a cell, also for addresses that are of no interest. -/
structure Collection where
  cells : Cells
  seen : List (FuncId × InstId × ValueId × Ty)

namespace Intrinsic

def access (i : Intrinsic) : Access :=
  ⟨i.isLoad, i.isStore, i.isAtomic, i.isVolatile⟩

/-- The type of the value that a call of an intrinsic reads or writes, if the code around it tells. -/
def accessTy? (i : Intrinsic) (g : Graph) (result : Option ValueId) (args : List ValueId) :
    Option Ty :=
  match i with
  | .readMemory _ | .readDevice _ => result.map fun v => (g.pointerCastTy? v).getD (g.ty v)
  | .writeMemory _ | .writeDevice _ => args[2]?.map g.originTy
  | .compareExchange _ => args[3]?.map g.originTy
  | .fetchAndUpdate .. => do (← g.originPtrTy? (← args[2]?)).pointee?
  | .barrier _ => none

def accessTy (i : Intrinsic) (g : Graph) (result : Option ValueId) (args : List ValueId) : Ty :=
  (i.accessTy? g result args).getD ((i.width?.map AccessWidth.ty).getD .i8)

end Intrinsic

namespace Module

def intrinsic? (m : Module) (start : String) (f : FuncId) : Option Intrinsic :=
  Intrinsic.ofName? start (m.funcName f)

/-- What a call of an intrinsic or a cast to a pointer accesses. -/
def directUse? (m : Module) (start : String) (g : Graph) (i : InstId) : Option AddressUse :=
  match g.inst? i with
  | some (.call callee args _) => do
    let intrinsic ← m.intrinsic? start callee
    if intrinsic.isMemoryAccess then
      let address ← args[1]?
      return ⟨i, address, intrinsic.accessTy g (g.result? i) args, intrinsic.access⟩
    else none
  | some (.cast .intToPtr arg (.ptr pointee)) => some ⟨i, arg, pointee, .plain⟩
  -- The address was accessed as what the pointer pointed to before the cast.
  | some (.cast .bitcast arg (.ptr _)) => do
    let pointee ← (← g.originPtrTy? arg).pointee?
    return ⟨i, arg, pointee, .plain⟩
  | _ => none

/-- What a call of another function accesses: all that its arguments point to. -/
def argumentUses (m : Module) (start : String) (g : Graph) (i : InstId) : List AddressUse :=
  match g.inst? i with
  | some (.call callee args _) =>
    match m.intrinsic? start callee with
    | some _ => []
    | none => args.filterMap fun v => (g.ty v).pointee?.map fun pointee => ⟨i, v, pointee, .plain⟩
  | _ => []

/-- All uses of addresses in a function. Those by arguments are looked at last. -/
def addressUses (m : Module) (start : String) (f : Func) : List AddressUse :=
  f.code.filterMap (m.directUse? start f.graph) ++ f.code.flatMap (m.argumentUses start f.graph)

/-- How many bytes an access of a type takes. Code is accessed by its address. -/
def sizeOfAccess (m : Module) (f : Func) (ty : Ty) : Except RecoveryError Nat :=
  if ty.isFunc then .ok m.layout.pointerBytes
  else
    match m.layout.allocSize? ty with
    | some size => .ok size
    | none => .error (.unsizedType f.signature.name ty.shown)

end Module

namespace Collection

def empty : Collection := ⟨.empty, []⟩

def addCell (image : Image) (c : Collection) (cell : Cell) : Collection :=
  let key := (cell.func, cell.user, cell.value, cell.ty)
  if key ∈ c.seen then c
  else
    -- A cell of unknown bytes is dropped, yet seen.
    let cells := match image.kindAt cell.address with
      | .stack => c.cells.addStack cell
      | .global | .code => c.cells.addGlobal cell
      | .unknown => c.cells
    ⟨cells, c.seen ++ [key]⟩

def cellsOf (id : FuncId) (g : Graph) (use : AddressUse) (size : Nat) : List Cell :=
  (g.traceConstants use.user use.address).filterMap fun (user, value) =>
    (g.imm? value).map fun i =>
      ⟨id, i.toAddress, use.ty, size, use.access, user, value⟩

def addUse (image : Image) (m : Module) (id : FuncId) (f : Func) (c : Collection)
    (use : AddressUse) : Except RecoveryError Collection := do
  let size ← m.sizeOfAccess f use.ty
  return (cellsOf id f.graph use size).foldl (addCell image) c

def addFunc (image : Image) (start : String) (m : Module) (c : Collection) (id : FuncId) :
    Except RecoveryError Collection :=
  match m.func? id with
  | some f => (m.addressUses start f).foldlM (addUse image m id f) c
  | none => .ok c

end Collection

namespace Module

def materialize (m : Module) : Module :=
  m.definedFuncs.foldl (fun m f => m.updateFunc f Func.materialize) m

/-- The cells of a program, whose expressions are materialized first. -/
def collect (m : Module) (image : Image) (start : String) : Except RecoveryError (Module × Cells) :=
  let m := m.materialize
  do
    -- From here on each constant is an operand of some instruction.
    let c ← m.definedFuncs.foldlM (Collection.addFunc image start m) .empty
    return (m, c.cells)

end Module

end VarRecovery
