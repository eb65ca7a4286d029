import VarRecovery.Code.Module
import VarRecovery.RecoveryError

/-!
Writing instructions at the start of functions, where they come before all uses of their results.
-/

set_option autoImplicit false

namespace VarRecovery

/-- The instruction last written at the start of each function. -/
structure EntryCursor where
  last : List (FuncId × InstId)
deriving DecidableEq

namespace EntryCursor

def start : EntryCursor := ⟨[]⟩

/-- Where the next instruction goes: behind the last one, or at the top of the entry block. -/
def place? (c : EntryCursor) (f : FuncId) (func : Func) : Option Place :=
  match c.last.lookup f with
  | some i => some (.after i)
  | none => func.listing.entry?.map .top

/-- Writes an instruction with a result of type `ty`, behind those written before. -/
def insert (c : EntryCursor) (m : Module) (f : FuncId) (inst : Inst) (ty : Ty) :
    Except RecoveryError (Module × EntryCursor × ValueId) :=
  match m.func? f with
  | none => .error (.missingBody (m.funcName f))
  | some func =>
    match c.place? f func with
    | none => .error (.missingBody func.signature.name)
    | some place =>
      -- The cursor remembers the instruction, and its last entry for a function counts.
      let (func, i) := func.insertInst inst place
      let (graph, v) := func.graph.addResult i ty
      .ok (m.updateFunc f fun _ => { func with graph }, ⟨(f, i) :: c.last⟩, v)

end EntryCursor

namespace Module

def addOffset (m : Module) (f : FuncId) (n : Int) : Module × ValueId :=
  match m.func? f with
  | none => (m, ⟨0⟩)
  | some func =>
    let (func, v) := func.addImm (.ofInt m.layout.pointerWidth n)
    (m.updateFunc f fun _ => func, v)

end Module

end VarRecovery
