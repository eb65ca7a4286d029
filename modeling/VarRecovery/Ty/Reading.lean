import VarRecovery.Ty.Expr
import VarRecovery.Ty.Store
import VarRecovery.Word

/-!
Reading type spellings into a store. Structs written with a body are declared on the way, inner ones
first, and stay declared if a later part of the spelling fails.
-/

set_option autoImplicit false

namespace VarRecovery.Ty

inductive ReadError where
  | ungrammatical
  /-- A length that does not fit into 64 bits; `text` is the whole spelling. -/
  | malformed (text : String)
  | unknownStruct (name : String)
  | conflictingStruct (name : String)
deriving DecidableEq, Repr

/-- A step of reading, which may declare structs even if it fails. -/
abbrev Reading := ExceptT ReadError (StateM TyStore)

namespace ReadError

/-- What grammar a spelling breaks is left to the grammar: that error has no text. -/
def message? : ReadError → Option String
  | .ungrammatical => none
  | .malformed text => some ("malformed type `" ++ text ++ "`")
  | .unknownStruct name => some ("unknown struct `@" ++ name ++ "`")
  | .conflictingStruct name =>
    some ("struct `@" ++ name ++ "` conflicts with an existing definition")

end ReadError

/-- Declares a struct, or takes the known one if its body is the same. -/
def declare (d : StructDef) : Reading Ty := do
  match (← get).declare d with
  | .ok (store, ty) =>
    set store
    return ty
  | .error _ => throw (.conflictingStruct d.name)

def lookUp (name : String) : Reading Ty := do
  match (← get).find? name with
  | some d => return d.ty
  | none => throw (.unknownStruct name)

def readLength (text : String) (digits : List Char) : Reading Nat :=
  if Nat.ofDigitChars 10 digits 0 < Word.count then pure (Nat.ofDigitChars 10 digits 0)
  else throw (.malformed text)

namespace Expr

mutual

/-- The type an expression stands for. `text` is the spelling it was read from. -/
def resolve (text : String) : Expr → Reading Ty
  | .scalar ty => pure ty
  | .ptr pointee => do return .ptr (← resolve text pointee)
  -- Inside out and left to right: the first error met is the one reported.
  | .array elem len => do
    let elem ← resolve text elem
    return .array elem (← readLength text len)
  | .vector elem len => do
    let elem ← resolve text elem
    return .vector elem (← readLength text len)
  | .func args ret => do
    let args ← resolveList text args
    return .func args (← resolve text ret)
  | .reference name => lookUp (String.ofList name)
  | .struct name fields packed => do
    let fields ← resolveList text fields
    declare ⟨String.ofList name, fields, packed⟩

def resolveList (text : String) : List Expr → Reading (List Ty)
  | [] => pure []
  | e :: es => do
    let ty ← resolve text e
    return ty :: (← resolveList text es)

end

end Expr

def ofText (text : String) : Reading Ty :=
  match Expr.ofChars? text.toList with
  | none => throw .ungrammatical
  | some e => e.resolve text

def read (text : String) (store : TyStore) : Except ReadError Ty × TyStore :=
  (ofText text).run.run store

end VarRecovery.Ty
