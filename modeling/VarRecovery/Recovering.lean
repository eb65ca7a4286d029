import VarRecovery.RecoveryError
import VarRecovery.Warning

/-!
Steps of recovery: they may fail, and they give warnings, also before they fail.
-/

set_option autoImplicit false

namespace VarRecovery

abbrev Recovering := ExceptT RecoveryError (StateM (List Warning))

namespace Recovering

def warn (w : Warning) : Recovering Unit :=
  modify (· ++ [w])

def warnAll (ws : List Warning) : Recovering Unit :=
  modify (· ++ ws)

/-- Runs a step: what it gives, or why it fails, and its warnings. -/
def warnings {α : Type} (x : Recovering α) : Except RecoveryError α × List Warning :=
  x.run.run []

end Recovering

end VarRecovery
