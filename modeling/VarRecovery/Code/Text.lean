import VarRecovery.Code.Module
import VarRecovery.Ty.Text

/-!
Program listings. Constants and addresses of variables and functions are written where they are used;
other values are written as `v` and their number.
-/

set_option autoImplicit false

namespace VarRecovery

namespace BlockId

def text (b : BlockId) : String :=
  "block" ++ Nat.repr b.index

end BlockId

namespace ValueId

def text (v : ValueId) : String :=
  "v" ++ Nat.repr v.index

end ValueId

namespace StructDef

def text (d : StructDef) : String :=
  let fields := ", ".intercalate (d.fields.map Ty.shown)
  "type @" ++ d.name ++ " = " ++ String.ofList (Ty.opening d.packed) ++ fields
    ++ String.ofList (Ty.closing d.packed) ++ ";\n"

end StructDef

namespace GlobalVar

def text (v : GlobalVar) : String :=
  "global " ++ v.linkage.text ++ (if v.isConst then " const" else "") ++ " " ++ v.ty.shown
    ++ " %" ++ v.symbol ++ ";\n"

end GlobalVar

namespace Module

def symbol (m : Module) (id : GlobalId) : String :=
  ((m.global? id).map GlobalVar.symbol).getD ""

/-- A value as an operand, but for constant expressions. -/
def leafText (m : Module) (g : Graph) (v : ValueId) : String :=
  match g.value? v with
  | some (.imm i) => i.text ++ "." ++ i.ty.shown
  | some (.global id _) => "%" ++ m.symbol id
  | some (.func id _) => "%" ++ m.funcName id
  | _ => v.text

/-- A value as an operand. An expression's operands were made before it, so `depth` steps down suffice
for the value numbered `depth`. -/
def operandText (m : Module) (g : Graph) : Nat → ValueId → String
  | 0, v => m.leafText g v
  | depth + 1, v =>
    match g.value? v with
    | some (.expr e ty) =>
      let op := match e with
        | .cast op _ => op.text
        | .binary op _ _ => op.text
      "(" ++ op ++ String.join (e.operands.map fun a => " " ++ m.operandText g depth a) ++ " to "
        ++ ty.shown ++ ")"
    | _ => m.leafText g v

def valueText (m : Module) (g : Graph) (v : ValueId) : String :=
  m.operandText g g.values.size v

def operandsText (m : Module) (g : Graph) (vs : List ValueId) : String :=
  String.join (vs.map fun v => " " ++ m.valueText g v)

def actionText (m : Module) (g : Graph) (inst : Inst) : String :=
  let operands := m.operandsText g inst.operands
  match inst with
  | .unary op _ => op.text ++ operands
  | .binary op _ _ => op.text ++ operands
  | .cast op _ _ => op.text ++ operands
  | .load .. => "load" ++ operands
  | .store .. => "store" ++ operands
  | .alloca ty => "alloca " ++ ty.shown
  | .gep .. => "gep" ++ operands
  | .call callee _ _ => "call %" ++ m.funcName callee ++ operands
  | .jump dest => "jump " ++ dest.text
  | .branch _ ifTrue ifFalse => "br" ++ operands ++ " " ++ ifTrue.text ++ " " ++ ifFalse.text
  | .leave _ => "return" ++ operands
  | .phi incoming _ =>
    "phi" ++ String.join (incoming.map fun (v, b) => " (" ++ m.valueText g v ++ " " ++ b.text ++ ")")

def instText (m : Module) (g : Graph) (i : InstId) : String :=
  let result := match g.result? i with
    | some v => v.text ++ "." ++ (g.ty v).shown ++ " = "
    | none => ""
  result ++ ((g.inst? i).map (m.actionText g)).getD ""

def blockText (m : Module) (f : Func) (b : BlockId) : String :=
  "    " ++ b.text ++ ":\n"
    ++ String.join ((f.listing.insts b).map fun i => "        " ++ m.instText f.graph i ++ ";\n")

def funcText (m : Module) (f : Func) : String :=
  -- Without a body there are no values to name, only types.
  let params :=
    if f.hasBody then f.args.map fun v => v.text ++ "." ++ (f.graph.ty v).shown
    else f.signature.args.map Ty.shown
  let head := "func " ++ f.signature.linkage.text ++ " %" ++ f.signature.name ++ "("
    ++ ", ".intercalate params ++ ") -> " ++ f.signature.ret.shown
  if f.hasBody then
    head ++ " \x7b\n" ++ "\n".intercalate (f.listing.blockIds.map (m.blockText f)) ++ "\x7d\n"
  else head ++ ";\n"

def text (m : Module) : String :=
  "target = \"" ++ m.target.text ++ "\"\n"
    ++ String.join (m.types.structs.map StructDef.text)
    ++ String.join (m.globals.toList.map GlobalVar.text)
    ++ String.join (m.funcs.toList.map fun f => "\n" ++ m.funcText f)

end Module

end VarRecovery
