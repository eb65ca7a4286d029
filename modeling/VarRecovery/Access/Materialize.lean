import VarRecovery.Code.Module

/-!
Constant expressions in operands become instructions of their own, so that each constant in a function
is used by an instruction.
-/

set_option autoImplicit false

namespace VarRecovery

namespace Inst

/-- The instruction with other operands, of which there are as many as before. -/
def withOperands : Inst → List ValueId → Inst
  | .unary op _, [arg] => .unary op arg
  | .binary op _ _, [lhs, rhs] => .binary op lhs rhs
  | .cast op _ ty, [arg] => .cast op arg ty
  | .load _ ty, [address] => .load address ty
  | .store _ _, [address, value] => .store address value
  | .gep _ _, base :: path => .gep base path
  | .call callee _ ret, args => .call callee args ret
  | .branch _ ifTrue ifFalse, [cond] => .branch cond ifTrue ifFalse
  | .leave (some _), [value] => .leave (some value)
  | .phi incoming ty, values => .phi (values.zip (incoming.map Prod.snd)) ty
  | inst, _ => inst

end Inst

namespace Func

def isExpr (f : Func) (v : ValueId) : Bool :=
  match f.graph.value? v with
  | some (.expr ..) => true
  | _ => false

/-- Writes the instructions of an expression in front of `anchor`, operands first. Other values stay as
they are. Expressions nest at most `depth` deep. -/
def materializeValue : Nat → Func → ValueId → InstId → Func × ValueId
  | 0, f, v, _ => (f, v)
  | depth + 1, f, v, anchor =>
    match f.graph.value? v with
    -- The operands' own instructions come first, so each result is there before its use.
    | some (.expr (.cast op arg) ty) =>
      let (f, arg) := materializeValue depth f arg anchor
      f.insert (.cast op arg ty) ty (.before anchor)
    | some (.expr (.binary op lhs rhs) ty) =>
      let (f, lhs) := materializeValue depth f lhs anchor
      let (f, rhs) := materializeValue depth f rhs anchor
      f.insert (.binary op lhs rhs) ty (.before anchor)
    | _ => (f, v)

def materializeOperands (depth : Nat) :
    Func → List (ValueId × Option InstId) → Func × List ValueId
  | f, [] => (f, [])
  | f, (v, anchor) :: rest =>
    let (f, v) := match anchor with
      | some anchor => materializeValue depth f v anchor
      | none => (f, v)
    let (f, vs) := materializeOperands depth f rest
    (f, v :: vs)

/-- The operands of an instruction, each with the instruction that its own instructions go in front of:
for a value that comes into a phi the last of the block it comes from, else the instruction itself. -/
def anchors (f : Func) (i : InstId) : Inst → List (ValueId × Option InstId)
  | .phi incoming _ => incoming.map fun (v, block) => (v, f.listing.last? block)
  | inst => inst.operands.map fun v => (v, some i)

def materializeInst (f : Func) (i : InstId) : Func :=
  match f.graph.inst? i with
  | none => f
  | some inst =>
    -- An expression has smaller numbers in it than its own, so no nest is deeper than all values.
    if inst.operands.any f.isExpr then
      let (f, operands) := materializeOperands f.graph.values.size f (f.anchors i inst)
      f.updateGraph (·.setInst i (inst.withOperands operands))
    else f

def materialize (f : Func) : Func :=
  f.code.foldl materializeInst f

end Func

end VarRecovery
