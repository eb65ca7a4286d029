import VarRecovery.Ty.Basic

/-!
Function signatures, as a program declares them.
-/

set_option autoImplicit false

namespace VarRecovery

inductive Linkage where
  | exported
  | internal
  | external
deriving DecidableEq, Repr

structure Signature where
  name : String
  linkage : Linkage
  args : List Ty
  ret : Ty
  /-- The position of the argument that holds the address of the returned struct. -/
  structRet : Option Nat
  isVariadic : Bool
  isNoreturn : Bool
deriving DecidableEq

namespace Linkage

def text : Linkage → String
  | .exported => "public"
  | .internal => "private"
  | .external => "external"

end Linkage

namespace Signature

def ty (s : Signature) : Ty :=
  .func s.args s.ret

def ptrTy (s : Signature) : Ty :=
  .ptr s.ty

end Signature

end VarRecovery
