import VarRecovery.Access.Collect

/-!
Lowering: plain loads and stores take the place of calls that read and write memory. Barriers and writes
give on the state of memory that they were given.
-/

set_option autoImplicit false

namespace VarRecovery

structure LoweredCall where
  func : FuncId
  inst : InstId
  intrinsic : Intrinsic

structure Lowering where
  module : Module
  lowered : Nat
  /-- The pointers whose addresses were accessed. -/
  pointers : List (FuncId × ValueId)

namespace Module

def loweredCall? (m : Module) (start : String) (f : FuncId) (g : Graph) (i : InstId) :
    Except RecoveryError (Option LoweredCall) :=
  match g.inst? i with
  | some (.call callee args _) =>
    match m.intrinsic? start callee with
    | none => .ok none
    | some intrinsic =>
      -- All calls are looked at before the first is lowered, so an error leaves the program alone.
      if !intrinsic.isLowered then .ok none
      else if ((m.func? callee).map Func.hasBody).getD false then
        .error (.intrinsicHasBody (m.funcName callee))
      else if args.length < intrinsic.arity then
        .error (.malformedIntrinsic (m.funcName callee) args.length intrinsic.arity)
      else .ok (some ⟨f, i, intrinsic⟩)
  | _ => .ok none

def allCode (m : Module) : List (FuncId × InstId) :=
  m.funcIds.flatMap fun f => ((m.func? f).map Func.code).getD [] |>.map (f, ·)

/-- All calls that are lowered. A call that cannot be is an error. -/
def loweredCalls (m : Module) (start : String) : Except RecoveryError (List LoweredCall) := do
  let calls ← m.allCode.mapM fun (f, i) => m.loweredCall? start f (m.graph f) i
  return calls.filterMap id

end Module

namespace Func

/-- The pointer through which a call accesses a value of type `ty`, and the pointer that its address
was made from. -/
def accessPointer (f : Func) (call : InstId) (address : ValueId) (ty : Ty) :
    Func × ValueId × Option ValueId :=
  match f.graph.castOf? address with
  | some (.ptrToInt, ptr) =>
    if f.graph.ty ptr = .ptr ty then (f, ptr, some ptr)
    else
      let (f, v) := f.insert (.cast .bitcast ptr (.ptr ty)) (.ptr ty) (.before call)
      (f, v, some ptr)
  | _ =>
    let (f, v) := f.insert (.cast .intToPtr address (.ptr ty)) (.ptr ty) (.before call)
    (f, v, none)

def argument (f : Func) (call : InstId) (n : Nat) : ValueId :=
  (f.graph.operands call).getD n ⟨0⟩

def forwardResult (f : Func) (call : InstId) (v : ValueId) : Func :=
  match f.graph.result? call with
  | some result => f.updateGraph (·.replaceUses result v)
  | none => f

/-- A load in place of a call. An 80-bit float is cut to what the call gives. -/
def lowerToLoad (f : Func) (call : InstId) (width : AccessWidth) : Func × Option ValueId :=
  let (f, ptr, source) := f.accessPointer call (f.argument call 1) width.ty
  let (f, loaded) := f.insert (.load ptr width.ty) width.ty (.before call)
  match f.graph.result? call with
  | none => (f, source)
  | some result =>
    let ty := f.graph.ty result
    let (f, v) :=
      if width = .f80 ∧ ty ≠ .f80 then f.insert (.cast .fpTrunc loaded ty) ty (.before call)
      else (f, loaded)
    (f.forwardResult call v, source)

/-- A store in place of a call. What is stored as an 80-bit float is extended to one. -/
def lowerToStore (f : Func) (call : InstId) (width : AccessWidth) : Func × Option ValueId :=
  let (f, ptr, source) := f.accessPointer call (f.argument call 1) width.ty
  let value := f.argument call 2
  let (f, value) :=
    if width = .f80 ∧ f.graph.ty value ≠ .f80 then
      f.insert (.cast .fpExt value .f80) .f80 (.before call)
    else (f, value)
  let (f, _) := f.insertInst (.store ptr value) (.before call)
  (f.forwardResult call (f.argument call 0), source)

def lowerCall (f : Func) (call : InstId) (intrinsic : Intrinsic) : Func × Option ValueId :=
  let (f, source) := match intrinsic with
    | .readMemory width => f.lowerToLoad call width
    | .writeMemory width => f.lowerToStore call width
    -- A barrier only hands the state of memory on.
    | _ => (f.forwardResult call (f.argument call 0), none)
  (f.remove call, source)

end Func

namespace Lowering

def addCall (l : Lowering) (c : LoweredCall) : Lowering :=
  match l.module.func? c.func with
  | none => l
  | some f =>
    let (f, source) := f.lowerCall c.inst c.intrinsic
    { module := l.module.updateFunc c.func fun _ => f
      lowered := l.lowered + 1
      pointers := l.pointers ++ (source.map (c.func, ·)).toList }

end Lowering

namespace Module

def lower (m : Module) (start : String) : Except RecoveryError Lowering := do
  let calls ← m.loweredCalls start
  return calls.foldl Lowering.addCall ⟨m, 0, []⟩

end Module

end VarRecovery
