import VarRecovery.Code.Signature

/-!
Declarations: where the values of a function are on its entry and exit, and where a variable is.
-/

set_option autoImplicit false

namespace VarRecovery

inductive Location where
  | register (name : String)
  | memory (base : String) (offset : Int)
deriving DecidableEq, Repr

structure ValueDecl where
  ty : Ty
  location : Location
deriving DecidableEq

structure ParameterDecl where
  name : String
  value : ValueDecl
deriving DecidableEq

structure FunctionDecl where
  address : Nat
  signature : Signature
  params : List ParameterDecl
  returns : List ValueDecl
  /-- Where the return address is on entry. -/
  returnAddress : ValueDecl
  returnStackPointer : String
  /-- How far the return moves it. -/
  returnStackPointerOffset : Int
  /-- How many bytes below the top of the stack a function may use. -/
  redzone : Nat
deriving DecidableEq

structure VariableDecl where
  name : String
  ty : Ty
  address : Nat
deriving DecidableEq

end VarRecovery
