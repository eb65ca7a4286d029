import VarRecovery.Address

/-!
Why recovery fails.
-/

set_option autoImplicit false

namespace VarRecovery

inductive RecoveryError where
  | unsizedType (func ty : String)
  | unsizedVariable (name ty : String)
  | missingStackPointer (func : String)
  | intrinsicHasBody (name : String)
  | malformedIntrinsic (name : String) (args expected : Nat)
  | addressOverflow (address size : Nat)
  | missingBody (func : String)
deriving DecidableEq, Repr

namespace RecoveryError

def message : RecoveryError → String
  | .unsizedType func ty =>
    "`" ++ func ++ "` accesses memory as `" ++ ty ++ "`, which has no size"
  | .unsizedVariable name ty =>
    "variable `" ++ name ++ "` is declared as `" ++ ty ++ "`, which has no size"
  | .missingStackPointer func =>
    "`" ++ func ++ "` accesses the stack, but the initial stack pointer is unknown"
  | .intrinsicHasBody name => "intrinsic `" ++ name ++ "` has a body and can't be lowered"
  | .malformedIntrinsic name args expected =>
    "call to `" ++ name ++ "` passes " ++ Nat.repr args ++ " arguments, expected "
      ++ Nat.repr expected
  | .addressOverflow address size =>
    "access of " ++ Nat.repr size ++ " bytes at " ++ addressText address
      ++ " wraps around the address space"
  | .missingBody func => "`" ++ func ++ "` has no body to place values in"

end RecoveryError

end VarRecovery
