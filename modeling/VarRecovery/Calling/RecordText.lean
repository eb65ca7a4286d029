import VarRecovery.Calling.Record
import VarRecovery.Json.Reader

/-!
Records as JSON text. A record is an object; but for parameters, its fields in order may stand in an
array as well. Fields that a record does not have are skipped.
-/

set_option autoImplicit false

namespace VarRecovery

namespace Json

def toText? : Json → Option String
  | .str text => text
  | _ => none

def toBool? : Json → Option Bool
  | .bool b => some b
  | _ => none

def toNat? : Json → Option Nat
  | .int n => if 0 ≤ n then some n.toNat else none
  | _ => none

def toInt? : Json → Option Int
  | .int n => if n ≤ 0x7FFFFFFFFFFFFFFF then some n else none
  | _ => none

def toList? {α : Type} (item? : Json → Option α) : Json → Option (List α)
  | .arr items => items.mapM item?
  | _ => none

def toOption? {α : Type} (value? : Json → Option α) : Json → Option (Option α)
  | .null => some none
  | value => (value? value).map some

def valuesOf (fields : List (Option String × Json)) (key : String) : List Json :=
  (fields.filter (·.1 = some key)).map Prod.snd

/-- The value of each key of an object. No key may be there twice. -/
def objectFields? (keys : List String) (fields : List (Option String × Json)) :
    Option (List (Option Json)) :=
  if fields.all (·.1.isSome) then
    keys.mapM fun key =>
      match valuesOf fields key with
      | [] => some none
      | [value] => some (some value)
      | _ => none
  else none

/-- The value of each key of a record, written as an object or as an array. -/
def recordFields? (keys : List String) : Json → Option (List (Option Json))
  | .obj fields => objectFields? keys fields
  | .arr items =>
    -- Values stand in the order of the keys, and the last may be left out.
    if items.length ≤ keys.length then
      some (items.map some ++ List.replicate (keys.length - items.length) none)
    else none
  | _ => none

end Json

namespace MemoryRecord

def ofJson? (j : Json) : Option MemoryRecord := do
  match ← j.recordFields? ["register", "offset"] with
  | [some register, some offset] => return ⟨← register.toText?, ← offset.toInt?⟩
  | _ => none

def text (r : MemoryRecord) : String :=
  Json.object [("register", Json.quote r.register), ("offset", toString r.offset)]

end MemoryRecord

namespace ValueRecord

def keys : List String := ["type", "register", "memory"]

def ofFields? : List (Option Json) → Option ValueRecord
  | [some ty, register, memory] => do
    return ⟨← ty.toText?, ← (register.getD .null).toOption? Json.toText?,
      ← (memory.getD .null).toOption? MemoryRecord.ofJson?⟩
  | _ => none

def ofJson? (j : Json) : Option ValueRecord := do
  ofFields? (← j.recordFields? keys)

/-- The fields of a record. A location that is not there is left out. -/
def textFields (r : ValueRecord) : List (String × String) :=
  ("type", Json.quote r.ty) :: (r.register.map fun x => ("register", Json.quote x)).toList
    ++ (r.memory.map fun x => ("memory", x.text)).toList

def text (r : ValueRecord) : String :=
  Json.object r.textFields

end ValueRecord

namespace ParameterRecord

/-- How deep a field of a parameter may nest: a text nests at most 127 deep, of which the function,
its list of parameters and the parameter take three. -/
def nesting : Nat := 124

/-- The fields of a parameter are those of its value and its name. Fields that are skipped have to be
storable here. -/
def ofJson? : Json → Option ParameterRecord
  | .obj fields =>
    if Json.haveStorable nesting fields then do
      match ← Json.objectFields? ("name" :: ValueRecord.keys) fields with
      | some name :: value => return ⟨← name.toText?, ← ValueRecord.ofFields? value⟩
      | _ => none
    else none
  | _ => none

def text (r : ParameterRecord) : String :=
  Json.object (("name", Json.quote r.name) :: r.value.textFields)

end ParameterRecord

namespace FunctionRecord

def keys : List String :=
  ["address", "name", "parameters", "return_values", "return_address", "return_stack_pointer",
    "num_bytes_in_redzone", "is_variadic", "is_noreturn"]

def ofJson? (j : Json) : Option FunctionRecord := do
  match ← j.recordFields? keys with
  | [some address, some name, some parameters, some returnValues, some returnAddress,
      some returnStackPointer, some redzone, some isVariadic, some isNoreturn] =>
    return {
      address := ← address.toNat?
      name := ← name.toText?
      parameters := ← parameters.toList? ParameterRecord.ofJson?
      returnValues := ← returnValues.toList? ValueRecord.ofJson?
      returnAddress := ← ValueRecord.ofJson? returnAddress
      returnStackPointer := ← MemoryRecord.ofJson? returnStackPointer
      redzone := ← redzone.toNat?
      isVariadic := ← isVariadic.toBool?
      isNoreturn := ← isNoreturn.toBool? }
  | _ => none

def text (r : FunctionRecord) : String :=
  Json.object [
    ("address", toString r.address),
    ("name", Json.quote r.name),
    ("parameters", Json.array (r.parameters.map ParameterRecord.text)),
    ("return_values", Json.array (r.returnValues.map ValueRecord.text)),
    ("return_address", r.returnAddress.text),
    ("return_stack_pointer", r.returnStackPointer.text),
    ("num_bytes_in_redzone", toString r.redzone),
    ("is_variadic", toString r.isVariadic),
    ("is_noreturn", toString r.isNoreturn)]

def readDecl (text : String) : RecordReading FunctionDecl :=
  match (Json.ofText? text).bind ofJson? with
  | some r => r.decl
  | none => throw .malformed

end FunctionRecord

namespace VariableRecord

def ofJson? (j : Json) : Option VariableRecord := do
  match ← j.recordFields? ["name", "type", "address"] with
  | [some name, some ty, some address] =>
    return ⟨← name.toText?, ← ty.toText?, ← address.toNat?⟩
  | _ => none

def text (r : VariableRecord) : String :=
  Json.object [("name", Json.quote r.name), ("type", Json.quote r.ty),
    ("address", toString r.address)]

def readDecl (text : String) : RecordReading VariableDecl :=
  match (Json.ofText? text).bind ofJson? with
  | some r => r.decl
  | none => throw .malformed

end VariableRecord

namespace ValueRecord

def readDecl (text : String) : RecordReading ValueDecl :=
  match (Json.ofText? text).bind ofJson? with
  | some r => r.decl
  | none => throw .malformed

end ValueRecord

end VarRecovery
