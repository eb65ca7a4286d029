import VarRecovery.Calling.Decl
import VarRecovery.Ty.Reading
import VarRecovery.Ty.Text

/-!
Records: declarations in the form in which they are stored, with their types spelled. A record has no
signature; it follows from the parameters and the returned values.
-/

set_option autoImplicit false

namespace VarRecovery

structure MemoryRecord where
  register : String
  offset : Int
deriving DecidableEq, Repr

structure ValueRecord where
  ty : String
  register : Option String
  memory : Option MemoryRecord
deriving DecidableEq, Repr

structure ParameterRecord where
  name : String
  value : ValueRecord
deriving DecidableEq, Repr

structure FunctionRecord where
  address : Nat
  name : String
  parameters : List ParameterRecord
  returnValues : List ValueRecord
  returnAddress : ValueRecord
  returnStackPointer : MemoryRecord
  redzone : Nat
  isVariadic : Bool
  isNoreturn : Bool
deriving DecidableEq, Repr

structure VariableRecord where
  name : String
  ty : String
  address : Nat
deriving DecidableEq, Repr

inductive RecordError where
  | malformed
  | ambiguousLocation
  | ty (error : Ty.ReadError)
deriving DecidableEq, Repr

/-- A step of reading a record, which may declare structs even if it fails. -/
abbrev RecordReading := ExceptT RecordError (StateM TyStore)

namespace RecordError

def message? : RecordError → Option String
  | .malformed => none
  | .ambiguousLocation => some "a value must be located in exactly one of a register or memory"
  | .ty error => error.message?

end RecordError

namespace RecordReading

def readTy (text : String) : RecordReading Ty :=
  (Ty.ofText text).adapt .ty

end RecordReading

namespace ValueRecord

/-- A value is in a register or in memory, and not in both. -/
def location? (r : ValueRecord) : Option Location :=
  match r.register, r.memory with
  | some register, none => some (.register register)
  | none, some memory => some (.memory memory.register memory.offset)
  | _, _ => none

def decl (r : ValueRecord) : RecordReading ValueDecl :=
  match r.location? with
  | none => throw .ambiguousLocation
  | some location => do return ⟨← .readTy r.ty, location⟩

end ValueRecord

namespace ValueDecl

def record (d : ValueDecl) : ValueRecord :=
  match d.location with
  | .register register => ⟨d.ty.spelled, some register, none⟩
  | .memory base offset => ⟨d.ty.spelled, none, some ⟨base, offset⟩⟩

end ValueDecl

namespace ParameterRecord

def decl (r : ParameterRecord) : RecordReading ParameterDecl := do
  return ⟨r.name, ← r.value.decl⟩

end ParameterRecord

namespace FunctionRecord

/-- The struct of several returned values, which is called `name.ret`. -/
def returnStruct (name : String) (fields : List Ty) : RecordReading Ty := do
  let store ← get
  let base := name ++ ".ret"
  let known : StructDef := ⟨base, fields, false⟩
  -- The struct of an earlier reading is taken again, and no other of that name.
  if store.find? base = some known then return known.ty
  else
    let (store, ty) := store.addFresh base fields false
    set store
    return ty

def returnTy (name : String) : List ValueDecl → RecordReading Ty
  | [] => pure .unit
  | [value] => pure value.ty
  | values => returnStruct name (values.map ValueDecl.ty)

def decl (r : FunctionRecord) : RecordReading FunctionDecl := do
  let params ← r.parameters.mapM ParameterRecord.decl
  let returns ← r.returnValues.mapM ValueRecord.decl
  let returnAddress ← r.returnAddress.decl
  let ret ← returnTy r.name returns
  return {
    address := r.address
    signature := {
      name := r.name
      linkage := .external
      args := params.map (·.value.ty)
      ret
      structRet := none
      isVariadic := r.isVariadic
      isNoreturn := r.isNoreturn }
    params, returns, returnAddress
    returnStackPointer := r.returnStackPointer.register
    returnStackPointerOffset := r.returnStackPointer.offset
    redzone := r.redzone }

end FunctionRecord

namespace FunctionDecl

def record (d : FunctionDecl) : FunctionRecord where
  address := d.address
  name := d.signature.name
  parameters := d.params.map fun p => ⟨p.name, p.value.record⟩
  returnValues := d.returns.map ValueDecl.record
  returnAddress := d.returnAddress.record
  returnStackPointer := ⟨d.returnStackPointer, d.returnStackPointerOffset⟩
  redzone := d.redzone
  isVariadic := d.signature.isVariadic
  isNoreturn := d.signature.isNoreturn

end FunctionDecl

namespace VariableRecord

def decl (r : VariableRecord) : RecordReading VariableDecl := do
  return ⟨r.name, ← .readTy r.ty, r.address⟩

end VariableRecord

namespace VariableDecl

def record (d : VariableDecl) : VariableRecord :=
  ⟨d.name, d.ty.spelled, d.address⟩

end VariableDecl

end VarRecovery
