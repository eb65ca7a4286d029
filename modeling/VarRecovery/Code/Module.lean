import VarRecovery.Code.Func
import VarRecovery.DataLayout
import VarRecovery.Ty.Store

/-!
Programs: their struct definitions, global variables and functions. Variables have distinct symbols and
functions have distinct names.
-/

set_option autoImplicit false

namespace VarRecovery

structure GlobalVar where
  symbol : String
  ty : Ty
  linkage : Linkage
  isConst : Bool
deriving DecidableEq

structure Module where
  target : Target
  types : TyStore
  globals : Array GlobalVar
  funcs : Array Func

/-- A symbol that names a variable already. -/
structure DuplicateSymbol where
  symbol : String
deriving DecidableEq, Repr

namespace DuplicateSymbol

def message (d : DuplicateSymbol) : String :=
  "duplicate global symbol `" ++ d.symbol ++ "`"

end DuplicateSymbol

namespace Module

def empty (target : Target) : Module :=
  ⟨target, .empty, #[], #[]⟩

def layout (m : Module) : DataLayout :=
  m.target.dataLayout

def funcIds (m : Module) : List FuncId :=
  (List.range m.funcs.size).map FuncId.mk

def func? (m : Module) (f : FuncId) : Option Func :=
  m.funcs[f.index]?

def findFunc? (m : Module) (name : String) : Option FuncId :=
  (m.funcs.findIdx? (·.signature.name = name)).map FuncId.mk

def definedFuncs (m : Module) : List FuncId :=
  m.funcIds.filter fun f => ((m.func? f).map Func.hasBody).getD false

def graph (m : Module) (f : FuncId) : Graph :=
  ((m.func? f).map Func.graph).getD .empty

def listing (m : Module) (f : FuncId) : Listing :=
  ((m.func? f).map Func.listing).getD .empty

def funcName (m : Module) (f : FuncId) : String :=
  ((m.func? f).map (·.signature.name)).getD ""

/-- Declares a function, or finds the one of that name. -/
def declareFunc (m : Module) (s : Signature) : Module × FuncId :=
  match m.findFunc? s.name with
  | some f => (m, f)
  | none => ({ m with funcs := m.funcs.push (.declare s []) }, ⟨m.funcs.size⟩)

def updateFunc (m : Module) (f : FuncId) (g : Func → Func) : Module :=
  { m with funcs := m.funcs.modify f.index g }

def updateGraph (m : Module) (f : FuncId) (g : Graph → Graph) : Module :=
  m.updateFunc f (·.updateGraph g)

def global? (m : Module) (id : GlobalId) : Option GlobalVar :=
  m.globals[id.index]?

def findGlobal? (m : Module) (symbol : String) : Option GlobalId :=
  (m.globals.findIdx? (·.symbol = symbol)).map GlobalId.mk

def symbols (m : Module) : List String :=
  m.globals.toList.map GlobalVar.symbol

def freshSymbol (m : Module) (base : String) : String :=
  FreshName.choose m.symbols base

/-- Adds a variable under a symbol that is free. -/
def pushGlobal (m : Module) (v : GlobalVar) : Module × GlobalId :=
  ({ m with globals := m.globals.push v }, ⟨m.globals.size⟩)

def addGlobal (m : Module) (v : GlobalVar) : Except DuplicateSymbol (Module × GlobalId) :=
  match m.findGlobal? v.symbol with
  | some _ => .error ⟨v.symbol⟩
  | none => .ok (m.pushGlobal v)

/-- Changes the type of a variable, and of its address in every function. -/
def setGlobalTy (m : Module) (id : GlobalId) (ty : Ty) : Module :=
  { m with
    globals := m.globals.modify id.index fun v => { v with ty }
    funcs := m.funcs.map (·.updateGraph (·.setGlobalTy id (.ptr ty))) }

end Module

end VarRecovery
