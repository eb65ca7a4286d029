import VarRecovery.Calling.Record
import VarRecovery.Ty.Arena

/-!
Reading records into an arena of types: the handles of the types of a declaration. The other fields of a record are
taken over as they are.
-/

set_option autoImplicit false

namespace VarRecovery

/-- The types of the values of a function, and of what it returns. -/
structure FunctionHandles where
  params : List Handle
  returns : List Handle
  returnAddress : Handle
  ret : Handle

namespace ArenaReading

def readTy (text : String) : ArenaReading RecordError Handle :=
  (ofText text).adapt .ty

def valueDecl (r : ValueRecord) : ArenaReading RecordError Handle :=
  match r.location? with
  | none => throw .ambiguousLocation
  | some _ => readTy r.ty

def returnStruct (name : String) (fields : List Handle) : ArenaReading RecordError Handle := do
  let a ← get
  let base := name ++ ".ret"
  let fresh : ArenaReading RecordError Handle :=
    Interning.make (.struct (FreshName.choose a.names base) fields false)
  match a.structs.lookup base with
  | some place => if a.compounds[place]? = some (.struct base fields false) then return .compound place else fresh
  | none => fresh

def returnTy (name : String) : List Handle → ArenaReading RecordError Handle
  | [] => pure .unit
  | [ty] => pure ty
  | tys => returnStruct name tys

def functionDecl (r : FunctionRecord) : ArenaReading RecordError FunctionHandles := do
  let params ← r.parameters.mapM fun p => valueDecl p.value
  let returns ← r.returnValues.mapM valueDecl
  let returnAddress ← valueDecl r.returnAddress
  return ⟨params, returns, returnAddress, ← returnTy r.name returns⟩

def variableDecl (r : VariableRecord) : ArenaReading RecordError Handle :=
  readTy r.ty

end ArenaReading

end VarRecovery
