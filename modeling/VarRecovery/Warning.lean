import VarRecovery.Address

/-!
What a run does not fail on, but its caller should know of.
-/

set_option autoImplicit false

namespace VarRecovery

inductive Warning where
  | structReturnInMemory
  /-- A stack access of `ty` starts in a field that is placed already. -/
  | overlappingCell (address : Nat) (ty : String) (stop : Nat)
  | entityReplaced (name old : String) (address : Nat)
  | functionInPlace (name old : String) (address : Nat)
  | largerInPlace (name old : String) (address : Nat)
  | smallerReplaced (name old : String) (address : Nat)
  | retyped (symbol : String) (size : Nat) (ty : String)
  /-- The simplification of pointers came to its last round while there was more to simplify. -/
  | noFixpoint (rounds : Nat)
deriving DecidableEq, Repr

namespace Warning

def message : Warning → String
  | .structReturnInMemory =>
    "struct return does not fit in registers, returning through memory"
  | .overlappingCell address ty stop =>
    "stack cell " ++ addressText address ++ " of `" ++ ty ++ "` overlaps the frame up to "
      ++ addressText stop ++ ", skipping"
  | .entityReplaced name old address =>
    "`" ++ name ++ "` at " ++ addressText address ++ " replaces `" ++ old ++ "`"
  | .functionInPlace name old address =>
    "`" ++ name ++ "` at " ++ addressText address ++ " collides with `" ++ old ++ "`, dropping it"
  | .largerInPlace name old address =>
    "`" ++ name ++ "` at " ++ addressText address ++ " collides with the larger `" ++ old
      ++ "`, dropping it"
  | .smallerReplaced name old address =>
    "`" ++ name ++ "` at " ++ addressText address ++ " replaces the smaller `" ++ old ++ "`"
  | .retyped symbol size ty =>
    "`" ++ symbol ++ "` is accessed as " ++ Nat.repr size ++ " bytes but declared as `" ++ ty
      ++ "`, retyping"
  | .noFixpoint rounds =>
    "pointer rewriting stopped after " ++ Nat.repr rounds ++ " rounds without a fixpoint"

end Warning

end VarRecovery
