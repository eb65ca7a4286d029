/-!
Names that are not in use yet: the base itself, or the first free one of `base.1`, `base.2`, ….
-/

set_option autoImplicit false

namespace VarRecovery.FreshName

def candidate (base : String) : Nat → String
  | 0 => base
  | n + 1 => base ++ "." ++ Nat.repr (n + 1)

/-- One candidate more than there are names in use, so one of those tried is free. -/
def choose (used : List String) (base : String) : String :=
  (((List.range (used.length + 1)).map (candidate base)).find? (· ∉ used)).getD base

end VarRecovery.FreshName
