import VarRecovery.FreshName
import VarRecovery.Ty.Basic

/-!
The struct definitions of a program, in the order in which they were declared. A name is declared
once and keeps its definition.
-/

set_option autoImplicit false

namespace VarRecovery

structure StructDef where
  name : String
  fields : List Ty
  packed : Bool
deriving DecidableEq

structure TyStore where
  structs : List StructDef
deriving DecidableEq

namespace StructDef

def ty (d : StructDef) : Ty :=
  .struct d.name d.fields d.packed

end StructDef

/-- A name that stands for another body already. -/
structure Redefinition where
  name : String
deriving DecidableEq, Repr

namespace Redefinition

def message (r : Redefinition) : String :=
  "struct " ++ r.name ++ " is already defined"

end Redefinition

namespace TyStore

def empty : TyStore := ⟨[]⟩

def names (s : TyStore) : List String :=
  s.structs.map StructDef.name

def find? (s : TyStore) (name : String) : Option StructDef :=
  s.structs.find? (·.name = name)

/-- Declares a struct under a name that is free. -/
def add (s : TyStore) (d : StructDef) : TyStore :=
  ⟨s.structs ++ [d]⟩

/-- Declares a struct, or takes the known one if it is the same, and gives its type. -/
def declare (s : TyStore) (d : StructDef) : Except Redefinition (TyStore × Ty) :=
  match s.find? d.name with
  | none => .ok (s.add d, d.ty)
  -- The known fields are the same, but shared by all types with the struct in them.
  | some known => if known = d then .ok (s, known.ty) else .error ⟨d.name⟩

def freshName (s : TyStore) (base : String) : String :=
  FreshName.choose s.names base

/-- Declares a struct under a name made from `base`. -/
def addFresh (s : TyStore) (base : String) (fields : List Ty) (packed : Bool) : TyStore × Ty :=
  let d : StructDef := ⟨s.freshName base, fields, packed⟩
  (s.add d, d.ty)

end TyStore

end VarRecovery
