import VarRecovery.Access.Lowering
import VarRecovery.Pointer.Simplification
import VarRecovery.Region.Frame
import VarRecovery.Region.Globals

/-!
Recovery of variables. The constant addresses in lifted code get a home: stack addresses in frames of
functions, others in global variables. Calls that access memory become loads and stores, and arithmetic on
addresses becomes paths into types.
-/

set_option autoImplicit false

namespace VarRecovery

structure RecoveryConfig where
  /-- How many bytes below its lowest cell a frame covers. -/
  redzone : Nat
  maxRounds : Nat
  /-- What the names of all intrinsics start with. -/
  intrinsicStart : String
deriving DecidableEq, Repr

structure Recovered where
  module : Module
  cells : Nat
  frames : Nat
  globalsCreated : Nat
  intrinsicsLowered : Nat
  changes : Nat

namespace RecoveryConfig

def standard : RecoveryConfig where
  redzone := 128
  maxRounds := 64
  intrinsicStart := "__relift_"

end RecoveryConfig

namespace Module

def declareFunction (m : Module) (d : FunctionDecl) : Module × FuncId :=
  m.declareFunc d.signature

/-- Declares the variable of a declaration, or finds the one of that name. -/
def declareVariable (m : Module) (d : VariableDecl) : Module × GlobalId :=
  match m.findGlobal? d.name with
  | some id => (m, id)
  | none => m.pushGlobal ⟨d.name, d.ty, .external, false⟩

def declareImage (m : Module) (image : Image) :
    Module × List (Nat × FuncId) × List (Nat × GlobalId) :=
  let (m, funcs) := image.funcs.foldl (fun (m, fs) d =>
    let (m, f) := m.declareFunction d
    (m, fs ++ [(d.address, f)])) (m, [])
  let (m, vars) := image.vars.foldl (fun (m, vs) d =>
    let (m, v) := m.declareVariable d
    (m, vs ++ [(d.address, v)])) (m, [])
  (m, funcs, vars)

def placeVariable (m : Module) (t : EntityTable) (v : Nat × GlobalId) : Recovering EntityTable :=
  match m.global? v.2 with
  | none => return t
  | some var =>
    match m.layout.allocSize? var.ty with
    | none => throw (.unsizedVariable var.symbol var.ty.shown)
    | some size => do
      let (t, _, warnings) := t.insertVar m v.1 v.2 size
      Recovering.warnAll warnings
      return t

/-- Declares the entities of an image and places them, functions first. -/
def placeImage (m : Module) (image : Image) : Recovering (Module × EntityTable) := do
  let (m, funcs, vars) := m.declareImage image
  let (t, warnings) := funcs.foldl (fun (t, ws) (address, f) =>
    let (t, new) := t.insertFunc m address f
    (t, ws ++ new)) (EntityTable.empty, [])
  Recovering.warnAll warnings
  let t ← vars.foldlM m.placeVariable t
  return (m, t)

def pointerTo? (m : Module) (f : FuncId) (id : GlobalId) : Option ValueId :=
  ((m.graph f).values.findIdx? fun | .global other _ => other = id | _ => false).map ValueId.mk

def variablePointers (m : Module) (t : EntityTable) : List (FuncId × ValueId) :=
  t.entries.flatMap fun
    | (_, .var id) => m.funcIds.filterMap fun f => (m.pointerTo? f id).map (f, ·)
    | (_, .func _) => []

def placedFuncs (t : EntityTable) : List FuncId :=
  t.entries.filterMap fun
    | (_, .func f) => some f
    | (_, .var _) => none

def pointerArgs (m : Module) (id : FuncId) : List (FuncId × ValueId) :=
  match m.func? id with
  | none => []
  | some f => if f.hasBody then (f.args.filter fun v => (f.graph.ty v).isPtr).map (id, ·) else []

def pointerResult? (m : Module) (callees : List FuncId) (id : FuncId) (i : InstId) :
    Option (FuncId × ValueId) :=
  let g := m.graph id
  match g.inst? i with
  | some (.call callee _ _) =>
    if callee ∈ callees then
      match g.result? i with
      | some v => if (g.ty v).isPtr then some (id, v) else none
      | none => none
    else none
  | _ => none

/-- The pointers to the entities of a table, and those that its functions take and give. -/
def entityPointers (m : Module) (t : EntityTable) : List (FuncId × ValueId) :=
  let placed := placedFuncs t
  m.variablePointers t ++ placed.flatMap m.pointerArgs
    ++ m.allCode.filterMap fun (f, i) => m.pointerResult? placed f i

def buildFrames (image : Image) (redzone : Nat) :
    List (FuncId × List Cell) → Module → EntryCursor → Frontier →
      Recovering (Module × EntryCursor × Frontier)
  | [], m, cursor, fr => return (m, cursor, fr)
  | (f, cells) :: rest, m, cursor, fr => do
    let (m, cursor, frame) ← m.buildFrame f cells image.stackPointer redzone cursor
    buildFrames image redzone rest m cursor (fr.insertAll (frame.pointers.map (f, ·)))

def recover (m : Module) (image : Image) (config : RecoveryConfig) : Recovering Recovered := do
  -- Declarations come first, so that no recovered variable takes their names or addresses.
  let (m, t) ← m.placeImage image
  let (m, cells) ← m.collect image config.intrinsicStart
  let (m, cursor, fr) ← buildFrames image config.redzone cells.stack m .start .empty
  let (m, t, _, globals) ← m.buildGlobals t cells.globals cursor
  -- Calls are lowered once their addresses are made of pointers, which lowering then finds.
  let lowering ← m.lower config.intrinsicStart
  let m := lowering.module
  let fr := ((fr.insertAll globals.pointers).insertAll lowering.pointers).insertAll
    (m.entityPointers t)
  let simplified := m.simplifyPointers fr config.maxRounds
  Recovering.warnAll simplified.warnings
  return {
    module := simplified.module
    cells := cells.size
    frames := cells.stack.length
    globalsCreated := globals.created
    intrinsicsLowered := lowering.lowered
    changes := simplified.changes }

end Module

end VarRecovery
