import VarRecovery.Calling.Convention
import VarRecovery.Calling.Decl
import VarRecovery.Calling.Pieces
import VarRecovery.Ty.Text
import VarRecovery.Warning

/-!
Binding a signature to registers and memory by a calling convention. Parameters go into registers as
long as there are any for them, the others onto the stack, one behind the other, at offsets that are words
with a sign. A struct is returned in registers if all its pieces find one, and in memory otherwise.
-/

set_option autoImplicit false

namespace VarRecovery

inductive BindError where
  | unsupportedReturn (func ty convention : String)
  /-- A value goes into memory, but its type has no size. -/
  | unsized
deriving DecidableEq, Repr

inductive ReturnBinding where
  | registers (values : List ValueDecl)
  | byAddress (address : ValueDecl)
  | slot (ty : Ty)
deriving DecidableEq

namespace BindError

def message? : BindError → Option String
  | .unsupportedReturn func ty convention =>
    some ("`" ++ func ++ "` returns `" ++ ty ++ "`, which `" ++ convention ++ "` cannot return")
  | .unsized => none

end BindError

namespace ValueDecl

def inRegister (register : String) (ty : Ty) : ValueDecl :=
  ⟨ty, .register register⟩

def inMemory (base : String) (offset : Int) (ty : Ty) : ValueDecl :=
  ⟨ty, .memory base offset⟩

end ValueDecl

namespace Allocation

/-- A register for each of some types, in order, or none if one finds no register. -/
def bindAll? (L : DataLayout) : Allocation → List Ty → Option (List ValueDecl)
  | _, [] => some []
  | a, ty :: tys => do
    let c ← ValueClass.ofTy? L ty
    let (register, a) ← a.allocate? c
    let rest ← bindAll? L a tys
    return .inRegister register ty :: rest

end Allocation

namespace Convention

def structPieces (c : Convention) (L : DataLayout) (fields : List Ty) (packed : Bool) :
    Except BindError (List Ty) :=
  if c.coalesceStructFields then
    match L.mergeFields? fields packed with
    | some pieces => .ok pieces
    | none => .error .unsized
  else .ok fields

/-- The pieces of an integer that is a multiple of a pointer's width. -/
def widePieces (L : DataLayout) : Ty → List Ty
  | .int w =>
    let pieceBits := L.pointerBytes * 8
    if pieceBits < w.bits ∧ w.bits % pieceBits = 0 then
      List.replicate (w.bits / pieceBits) L.pointerInt
    else []
  | _ => []

/-- The registers for a value that is not a struct: one, or one per piece of a wide integer. -/
def scalarReturn? (c : Convention) (L : DataLayout) (ty : Ty) : Option (List ValueDecl) :=
  let registers := Allocation.start c.returnRegisters
  match registers.bindAll? L [ty] with
  | some values => some values
  | none =>
    -- The registers are free again: one value did not fit, so none of them was taken.
    match widePieces L ty with
    | [] => none
    | pieces => registers.bindAll? L pieces

def placeReturn (c : Convention) (L : DataLayout) (s : Signature) : Except BindError ReturnBinding :=
  match s.structRet.bind (s.args[·]?) with
  -- The caller's own argument is the address, whatever the function is said to return.
  | some ty => .ok (.byAddress (.inRegister c.structReturnRegister ty))
  | none =>
    match s.ret with
    | .unit => .ok (.registers [])
    | .struct name fields packed => do
      let pieces ← c.structPieces L fields packed
      match (Allocation.start c.returnRegisters).bindAll? L pieces with
      | some values => return .registers values
      | none => return .slot (.struct name fields packed)
    | ty =>
      match c.scalarReturn? L ty with
      | some values => .ok (.registers values)
      | none => .error (.unsupportedReturn s.name ty.shown c.name)

/-- The name of a parameter without one of its own; parameters are counted from 1. -/
def defaultName (position : Nat) : String :=
  "param" ++ Nat.repr (position + 1)

/-- Places parameters in registers, or else on the stack from `offset` on. -/
def bindParams (c : Convention) (L : DataLayout) :
    Allocation → Int → List (String × Ty) → Except BindError (List ParameterDecl)
  | _, _, [] => .ok []
  | a, offset, (name, ty) :: params =>
    match (ValueClass.ofTy? L ty).bind a.allocate? with
    | some (register, a) => do
      let rest ← c.bindParams L a offset params
      return ⟨name, .inRegister register ty⟩ :: rest
    | none =>
      match L.allocSize? ty with
      | none => .error .unsized
      | some size => do
        let rest ← c.bindParams L a (Word.wrapSigned (offset + size)) params
        return ⟨name, .inMemory c.stackPointer offset ty⟩ :: rest

/-- The parameters of a function. A slot for the returned value is the first of them. -/
def bindAllParams (c : Convention) (L : DataLayout) (ret : ReturnBinding)
    (params : List (String × Ty)) : Except BindError (List ParameterDecl) :=
  let registers := Allocation.start c.paramRegisters
  match ret with
  | .slot ty =>
    match L.allocSize? ty with
    | none => .error .unsized
    | some size => do
      let rest ← c.bindParams L registers (Word.wrapSigned (c.stackBaseOffset + size)) params
      return ⟨"return_slot", .inMemory c.stackPointer c.stackBaseOffset ty⟩ :: rest
  | _ => c.bindParams L registers c.stackBaseOffset params

end Convention

namespace ReturnBinding

def values (c : Convention) : ReturnBinding → List ValueDecl
  | .registers values => values
  | .byAddress address => [address]
  | .slot ty => [.inRegister c.structReturnRegister (.ptr ty)]

/-- Whether the caller passes the address of the returned value. -/
def isHidden : ReturnBinding → Bool
  | .registers _ => false
  | _ => true

def warnings : ReturnBinding → List Warning
  | .slot _ => [.structReturnInMemory]
  | _ => []

end ReturnBinding

namespace Signature

/-- The parameters with their names. `names` holds those that are known, by position. -/
def namedArgs (s : Signature) (names : List (Nat × String)) : List (String × Ty) :=
  s.args.zipIdx.map fun (ty, position) =>
    ((names.lookup position).getD (Convention.defaultName position), ty)

end Signature

namespace Convention

def bind (c : Convention) (L : DataLayout) (s : Signature) (names : List (Nat × String))
    (address : Nat) : Except BindError FunctionDecl × List Warning :=
  match c.placeReturn L s with
  | .error e => (.error e, [])
  | .ok ret =>
    let decl := do
      let params ← c.bindAllParams L ret (s.namedArgs names)
      let popped : Nat := if ret.isHidden ∧ c.calleePopsStructReturn then L.pointerBytes else 0
      return {
        address, params
        signature := s
        returns := ret.values c
        returnAddress := .inMemory c.stackPointer 0 L.pointerInt
        returnStackPointer := c.stackPointer
        returnStackPointerOffset := Word.wrapSigned (c.returnStackPointerOffset + popped)
        redzone := c.redzone }
    (decl, ret.warnings)

end Convention

end VarRecovery
