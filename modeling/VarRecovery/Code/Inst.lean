import VarRecovery.Code.Id
import VarRecovery.Ty.Basic

/-!
Instructions. Each names its operands and, where it ends a block, the blocks that may follow.
-/

set_option autoImplicit false

namespace VarRecovery

inductive UnaryOp where
  | not
  | neg
deriving DecidableEq, Repr

inductive BinaryOp where
  | add
  | sub
  | mul
  | udiv
  | sdiv
  | shl
  | lshr
  | eq
  | ne
  | and
  | or
  | xor
deriving DecidableEq, Repr

inductive CastOp where
  | sext
  | zext
  | trunc
  | bitcast
  | intToPtr
  | ptrToInt
  | fpTrunc
  | fpExt
deriving DecidableEq, Repr

inductive Inst where
  | unary (op : UnaryOp) (arg : ValueId)
  | binary (op : BinaryOp) (lhs rhs : ValueId)
  | cast (op : CastOp) (arg : ValueId) (ty : Ty)
  | load (address : ValueId) (ty : Ty)
  | store (address value : ValueId)
  /-- A slot in the frame of the function. -/
  | alloca (ty : Ty)
  /-- The address of a part of what `base` points to. -/
  | gep (base : ValueId) (path : List ValueId)
  | call (callee : FuncId) (args : List ValueId) (ret : Ty)
  | jump (dest : BlockId)
  | branch (cond : ValueId) (ifTrue ifFalse : BlockId)
  | leave (value : Option ValueId)
  /-- One of several values, by the block that control came from. -/
  | phi (incoming : List (ValueId × BlockId)) (ty : Ty)
deriving DecidableEq

namespace UnaryOp

def text : UnaryOp → String
  | .not => "not"
  | .neg => "neg"

end UnaryOp

namespace BinaryOp

def text : BinaryOp → String
  | .add => "add"
  | .sub => "sub"
  | .mul => "mul"
  | .udiv => "udiv"
  | .sdiv => "sdiv"
  | .shl => "shl"
  | .lshr => "lshr"
  | .eq => "eq"
  | .ne => "ne"
  | .and => "and"
  | .or => "or"
  | .xor => "xor"

def all : List BinaryOp :=
  [.add, .sub, .mul, .udiv, .sdiv, .shl, .lshr, .eq, .ne, .and, .or, .xor]

def ofText? (s : String) : Option BinaryOp :=
  all.find? (·.text = s)

end BinaryOp

namespace CastOp

def text : CastOp → String
  | .sext => "sext"
  | .zext => "zext"
  | .trunc => "trunc"
  | .bitcast => "bitcast"
  | .intToPtr => "inttoptr"
  | .ptrToInt => "ptrtoint"
  | .fpTrunc => "fptrunc"
  | .fpExt => "fpext"

def all : List CastOp :=
  [.sext, .zext, .trunc, .bitcast, .intToPtr, .ptrToInt, .fpTrunc, .fpExt]

def ofText? (s : String) : Option CastOp :=
  all.find? (·.text = s)

end CastOp

namespace Inst

/-- The values an instruction uses, in the order in which it names them. -/
def operands : Inst → List ValueId
  | .unary _ arg => [arg]
  | .binary _ lhs rhs => [lhs, rhs]
  | .cast _ arg _ => [arg]
  | .load address _ => [address]
  | .store address value => [address, value]
  | .alloca _ => []
  | .gep base path => base :: path
  | .call _ args _ => args
  | .jump _ => []
  | .branch cond _ _ => [cond]
  | .leave value => value.toList
  | .phi incoming _ => incoming.map Prod.fst

def mapOperands (f : ValueId → ValueId) : Inst → Inst
  | .unary op arg => .unary op (f arg)
  | .binary op lhs rhs => .binary op (f lhs) (f rhs)
  | .cast op arg ty => .cast op (f arg) ty
  | .load address ty => .load (f address) ty
  | .store address value => .store (f address) (f value)
  | .alloca ty => .alloca ty
  | .gep base path => .gep (f base) (path.map f)
  | .call callee args ret => .call callee (args.map f) ret
  | .jump dest => .jump dest
  | .branch cond ifTrue ifFalse => .branch (f cond) ifTrue ifFalse
  | .leave value => .leave (value.map f)
  | .phi incoming ty => .phi (incoming.map fun (v, b) => (f v, b)) ty

def replace (i : Inst) (old new : ValueId) : Inst :=
  i.mapOperands fun v => if v = old then new else v

def isTerminator : Inst → Bool
  | .jump _ | .branch .. | .leave _ => true
  | _ => false

def isPhi : Inst → Bool
  | .phi .. => true
  | _ => false

/-- Adds a value that comes in from `block`; only phis have such values. -/
def addIncoming (i : Inst) (v : ValueId) (block : BlockId) : Inst :=
  match i with
  | .phi incoming ty => .phi (incoming ++ [(v, block)]) ty
  | i => i

theorem operands_mapOperands (f : ValueId → ValueId) (i : Inst) :
    (i.mapOperands f).operands = i.operands.map f := by
  cases i <;> simp [operands, mapOperands]
  case leave value => cases value <;> rfl

end Inst

end VarRecovery
