import VarRecovery.Code.Value

/-!
The data flow of a function: its values, its instructions, and for each value the instructions that use
it. A tracked instruction counts as a user of its operands; one that is about to go is untracked.
-/

set_option autoImplicit false

namespace VarRecovery

structure Graph where
  values : Array Value
  /-- The users of each value, in ascending order. -/
  userLists : Array (List InstId)
  insts : Array Inst
  /-- The value that each instruction produces, if it does. -/
  results : Array (Option ValueId)

namespace InstId

/-- Puts a user into an ascending list that may hold it already. -/
def insertInto (i : InstId) : List InstId → List InstId
  | [] => [i]
  | j :: js =>
    if i.index < j.index then i :: j :: js
    else if i = j then j :: js
    else j :: insertInto i js

end InstId

namespace Graph

def empty : Graph := ⟨#[], #[], #[], #[]⟩

def value? (g : Graph) (v : ValueId) : Option Value :=
  g.values[v.index]?

def ty (g : Graph) (v : ValueId) : Ty :=
  ((g.value? v).map Value.ty).getD .unit

def imm? (g : Graph) (v : ValueId) : Option Imm :=
  match g.value? v with
  | some (.imm i) => some i
  | _ => none

def definition? (g : Graph) (v : ValueId) : Option InstId :=
  match g.value? v with
  | some (.result i _) => some i
  | _ => none

def inst? (g : Graph) (i : InstId) : Option Inst :=
  g.insts[i.index]?

/-- The instruction that produces a value, as written. -/
def defining? (g : Graph) (v : ValueId) : Option Inst :=
  (g.definition? v).bind g.inst?

def operands (g : Graph) (i : InstId) : List ValueId :=
  ((g.inst? i).map Inst.operands).getD []

def result? (g : Graph) (i : InstId) : Option ValueId :=
  g.results.getD i.index none

def users (g : Graph) (v : ValueId) : List InstId :=
  g.userLists.getD v.index []

def castOf? (g : Graph) (v : ValueId) : Option (CastOp × ValueId) :=
  match g.defining? v with
  | some (.cast op arg _) => some (op, arg)
  | _ => none

def isPhi (g : Graph) (i : InstId) : Bool :=
  ((g.inst? i).map Inst.isPhi).getD false

/-! ### Values -/

def addValue (g : Graph) (v : Value) : Graph × ValueId :=
  ({ g with values := g.values.push v, userLists := g.userLists.push [] }, ⟨g.values.size⟩)

/-- The first value that `p` holds for, or a new one. -/
def findOrAdd (g : Graph) (p : Value → Bool) (v : Value) : Graph × ValueId :=
  match g.values.findIdx? p with
  | some index => (g, ⟨index⟩)
  | none => g.addValue v

/-- The value of a constant. Equal constants have one value. -/
def addImm (g : Graph) (i : Imm) : Graph × ValueId :=
  g.findOrAdd (· = .imm i) (.imm i)

def addGlobal (g : Graph) (id : GlobalId) (ty : Ty) : Graph × ValueId :=
  g.findOrAdd (fun | .global other _ => other = id | _ => false) (.global id ty)

def addFunc (g : Graph) (id : FuncId) (ty : Ty) : Graph × ValueId :=
  g.findOrAdd (fun | .func other _ => other = id | _ => false) (.func id ty)

def setGlobalTy (g : Graph) (id : GlobalId) (ty : Ty) : Graph :=
  { g with
    values := g.values.map fun
      | .global other old => .global other (if other = id then ty else old)
      | v => v }

/-! ### Users -/

def updateUsers (g : Graph) (v : ValueId) (f : List InstId → List InstId) : Graph :=
  { g with userLists := g.userLists.modify v.index f }

def addUser (g : Graph) (i : InstId) (v : ValueId) : Graph :=
  g.updateUsers v i.insertInto

def removeUser (g : Graph) (i : InstId) (v : ValueId) : Graph :=
  g.updateUsers v (·.filter (· ≠ i))

def track (g : Graph) (i : InstId) : Graph :=
  (g.operands i).foldl (·.addUser i) g

def untrack (g : Graph) (i : InstId) : Graph :=
  (g.operands i).foldl (·.removeUser i) g

/-! ### Instructions -/

def addInst (g : Graph) (inst : Inst) : Graph × InstId :=
  let i : InstId := ⟨g.insts.size⟩
  ({ g with insts := g.insts.push inst, results := g.results.push none }.track i, i)

def addResult (g : Graph) (i : InstId) (ty : Ty) : Graph × ValueId :=
  let (g, v) := g.addValue (.result i ty)
  ({ g with results := g.results.setIfInBounds i.index (some v) }, v)

def updateInst (g : Graph) (i : InstId) (f : Inst → Inst) : Graph :=
  { g with insts := g.insts.modify i.index f }

/-- Puts another instruction in the place of one, which keeps its result. -/
def setInst (g : Graph) (i : InstId) (inst : Inst) : Graph :=
  ((g.untrack i).updateInst i fun _ => inst).track i

def addIncoming (g : Graph) (i : InstId) (v : ValueId) (block : BlockId) : Graph :=
  (g.updateInst i (·.addIncoming v block)).addUser i v

def replaceOperand (g : Graph) (i : InstId) (old new : ValueId) : Graph :=
  -- An instruction that does not use `old` must not become a user of `new`.
  if old ∈ g.operands i then
    ((g.updateInst i (·.replace old new)).removeUser i old).addUser i new
  else g

def replaceUses (g : Graph) (old new : ValueId) : Graph :=
  let users := g.users old
  -- The users of `old` are emptied first, since `new` may be the same value.
  let g := users.foldl (fun g i => g.updateInst i (·.replace old new)) (g.updateUsers old fun _ => [])
  users.foldl (·.addUser · new) g

end Graph

end VarRecovery
