import VarRecovery.Code.Inst
import VarRecovery.Imm

/-!
Values: what instructions use and produce.
-/

set_option autoImplicit false

namespace VarRecovery

/-- An operation on constants that stands in an operand. -/
inductive ConstExpr where
  | cast (op : CastOp) (arg : ValueId)
  | binary (op : BinaryOp) (lhs rhs : ValueId)
deriving DecidableEq

inductive Value where
  | result (inst : InstId) (ty : Ty)
  | arg (position : Nat) (ty : Ty)
  | imm (imm : Imm)
  | global (id : GlobalId) (ty : Ty)
  | func (id : FuncId) (ty : Ty)
  | expr (expr : ConstExpr) (ty : Ty)
deriving DecidableEq

namespace ConstExpr

def operands : ConstExpr → List ValueId
  | .cast _ arg => [arg]
  | .binary _ lhs rhs => [lhs, rhs]

end ConstExpr

namespace Value

def ty : Value → Ty
  | .result _ ty => ty
  | .arg _ ty => ty
  | .imm i => i.ty
  | .global _ ty => ty
  | .func _ ty => ty
  | .expr _ ty => ty

end Value

end VarRecovery
