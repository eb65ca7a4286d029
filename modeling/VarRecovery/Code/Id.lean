/-!
Names of the parts of a program. Values, instructions and blocks are numbered within their function,
functions and global variables within the program, each from 0 in order of creation.
-/

set_option autoImplicit false

namespace VarRecovery

structure ValueId where
  index : Nat
deriving DecidableEq, Repr

structure InstId where
  index : Nat
deriving DecidableEq, Repr

structure BlockId where
  index : Nat
deriving DecidableEq, Repr

structure FuncId where
  index : Nat
deriving DecidableEq, Repr

structure GlobalId where
  index : Nat
deriving DecidableEq, Repr

end VarRecovery
