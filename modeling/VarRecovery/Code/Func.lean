import VarRecovery.Code.Graph
import VarRecovery.Code.Listing
import VarRecovery.Code.Signature

/-!
Functions: a signature, and for those with a body their code. What is written into a function goes to
the graph and to the listing together.
-/

set_option autoImplicit false

namespace VarRecovery

structure Func where
  signature : Signature
  args : List ValueId
  /-- The names of arguments in the source, by position. -/
  argNames : List (Nat × String)
  graph : Graph
  listing : Listing

inductive Place where
  | top (block : BlockId)
  | bottom (block : BlockId)
  | before (anchor : InstId)
  | after (anchor : InstId)
deriving DecidableEq, Repr

namespace Listing

def insert (l : Listing) (inst : InstId) : Place → Listing
  | .top block => l.prepend inst block
  | .bottom block => l.append inst block
  | .before anchor => l.insertBefore inst anchor
  | .after anchor => l.insertAfter inst anchor

end Listing

namespace Func

def addArgs (g : Graph) : Nat → List Ty → Graph × List ValueId
  | _, [] => (g, [])
  | position, ty :: tys =>
    let (g, v) := g.addValue (.arg position ty)
    let (g, vs) := addArgs g (position + 1) tys
    (g, v :: vs)

def declare (signature : Signature) (argNames : List (Nat × String)) : Func :=
  let (graph, args) := addArgs .empty 0 signature.args
  { signature, args, argNames, graph, listing := .empty }

/-- A function is defined by its entry block, and without one only declared. -/
def hasBody (f : Func) : Bool :=
  f.listing.entry?.isSome

def updateGraph (f : Func) (g : Graph → Graph) : Func :=
  { f with graph := g f.graph }

def addBlock (f : Func) : Func :=
  -- Blocks are never taken out, so their number is free.
  { f with listing := f.listing.appendBlock ⟨f.listing.blocks.length⟩ }

def addImm (f : Func) (i : Imm) : Func × ValueId :=
  let (graph, v) := f.graph.addImm i
  ({ f with graph }, v)

def addExpr (f : Func) (e : ConstExpr) (ty : Ty) : Func × ValueId :=
  let (graph, v) := f.graph.addValue (.expr e ty)
  ({ f with graph }, v)

def insertInst (f : Func) (inst : Inst) (place : Place) : Func × InstId :=
  let (graph, i) := f.graph.addInst inst
  ({ f with graph, listing := f.listing.insert i place }, i)

def insert (f : Func) (inst : Inst) (ty : Ty) (place : Place) : Func × ValueId :=
  let (f, i) := f.insertInst inst place
  let (graph, v) := f.graph.addResult i ty
  ({ f with graph }, v)

def remove (f : Func) (i : InstId) : Func :=
  { f with graph := f.graph.untrack i, listing := f.listing.remove i }

def code (f : Func) : List InstId :=
  f.listing.allInsts

end Func

end VarRecovery
