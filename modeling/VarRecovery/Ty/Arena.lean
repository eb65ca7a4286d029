import VarRecovery.Ty.Reading

/-!
Types in an arena. A program holds a type by its handle, a scalar type or the place of a compound in the arena; a
compound has the handles of the types in it. Each compound is there once, so handles are compared instead of types.
-/

set_option autoImplicit false

namespace VarRecovery

inductive Handle where
  | int (width : IntWidth)
  | float (width : FloatWidth)
  | unit
  | compound (place : Nat)
deriving DecidableEq, Repr, Inhabited

inductive Compound where
  | ptr (pointee : Handle)
  | array (elem : Handle) (len : Nat)
  | vector (elem : Handle) (len : Nat)
  | struct (name : String) (fields : List Handle) (packed : Bool)
  | func (args : List Handle) (ret : Handle)
deriving DecidableEq, Repr

structure Arena where
  compounds : Array Compound
  places : List (Compound × Nat)
  /-- The structs by name, in the order in which they were declared. -/
  structs : List (String × Nat)
deriving DecidableEq

namespace Handle

def ofScalar? : Ty → Option Handle
  | .int w => some (.int w)
  | .float w => some (.float w)
  | .unit => some .unit
  | _ => none

end Handle

namespace Arena

def empty : Arena := ⟨#[], [], []⟩

def names (a : Arena) : List String :=
  a.structs.map Prod.fst

end Arena

/-- Steps on an arena, which end at once if a struct is declared again. -/
abbrev Interning := ExceptT Redefinition (StateM Arena)

namespace Interning

/-- The handle of a compound, which is placed if it is not there. -/
def make (c : Compound) : Interning Handle := do
  let a ← get
  match a.places.lookup c with
  | some place => return .compound place
  | none =>
    let place := a.compounds.size
    set { a with compounds := a.compounds.push c }
    match c with
    | .struct name _ _ =>
      -- What is placed already stays there, although no name and no compound leads to it.
      if (a.structs.lookup name).isSome then throw ⟨name⟩
      else set (⟨a.compounds.push c, (c, place) :: a.places, a.structs ++ [(name, place)]⟩ : Arena)
    | _ => set (⟨a.compounds.push c, (c, place) :: a.places, a.structs⟩ : Arena)
    return .compound place

end Interning

/-- Steps of reading into an arena. -/
abbrev ArenaReading (ε : Type) := ExceptT ε Interning

namespace ArenaReading

open Ty (ReadError)

def lookUp (name : String) : ArenaReading ReadError Handle := do
  match (← get).structs.lookup name with
  | some place => return .compound place
  | none => throw (.unknownStruct name)

def declareStruct (name : String) (fields : List Handle) (packed : Bool) : ArenaReading ReadError Handle := do
  let a ← get
  match a.structs.lookup name with
  | some place =>
    if a.compounds[place]? = some (.struct name fields packed) then return .compound place
    else throw (.conflictingStruct name)
  | none => Interning.make (.struct name fields packed)

def readLength (text : String) (digits : List Char) : ArenaReading ReadError Nat :=
  if Nat.ofDigitChars 10 digits 0 < Word.count then pure (Nat.ofDigitChars 10 digits 0)
  else throw (.malformed text)

mutual

def resolve (text : String) : Ty.Expr → ArenaReading ReadError Handle
  | .scalar ty =>
    match Handle.ofScalar? ty with
    | some h => pure h
    | none => throw (.malformed text)
  | .ptr pointee => do Interning.make (.ptr (← resolve text pointee))
  | .array elem len => do
    let elem ← resolve text elem
    Interning.make (.array elem (← readLength text len))
  | .vector elem len => do
    let elem ← resolve text elem
    Interning.make (.vector elem (← readLength text len))
  | .func args ret => do
    let args ← resolveList text args
    Interning.make (.func args (← resolve text ret))
  | .reference name => lookUp (String.ofList name)
  | .struct name fields packed => do
    let fields ← resolveList text fields
    declareStruct (String.ofList name) fields packed

def resolveList (text : String) : List Ty.Expr → ArenaReading ReadError (List Handle)
  | [] => pure []
  | e :: es => do
    let ty ← resolve text e
    return ty :: (← resolveList text es)

end

def ofText (text : String) : ArenaReading ReadError Handle :=
  match Ty.Expr.ofChars? text.toList with
  | none => throw .ungrammatical
  | some e => resolve text e

end ArenaReading

end VarRecovery
