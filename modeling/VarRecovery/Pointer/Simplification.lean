import VarRecovery.Pointer.DeadCode
import VarRecovery.Pointer.Displacement
import VarRecovery.Pointer.Phi
import VarRecovery.Warning

/-!
Simplification of pointer arithmetic. In each round, displacements of the pointers in the frontier are
folded, phis of addresses are sunk, and dead code is removed. Each new pointer joins the frontier. Rounds
follow until one changes nothing.
-/

set_option autoImplicit false

namespace VarRecovery

/-- Pointers by function, in the order in which they came. -/
structure Frontier where
  pointers : List (FuncId × ValueId)
  nodup : pointers.Nodup
deriving DecidableEq

namespace Frontier

def empty : Frontier := ⟨[], .nil⟩

theorem nodup_concat {ps : List (FuncId × ValueId)} (nodup : ps.Nodup) {p : FuncId × ValueId}
    (absent : p ∉ ps) : (ps ++ [p]).Nodup := by
  refine List.nodup_append.mpr ⟨nodup, by simp, fun q inside r last => ?_⟩
  rw [List.mem_singleton.mp last]
  exact fun same => absent (same ▸ inside)

def insert (fr : Frontier) (p : FuncId × ValueId) : Frontier :=
  if h : p ∈ fr.pointers then fr else ⟨fr.pointers ++ [p], nodup_concat fr.nodup h⟩

def insertAll (fr : Frontier) (ps : List (FuncId × ValueId)) : Frontier :=
  ps.foldl insert fr

def size (fr : Frontier) : Nat :=
  fr.pointers.length

end Frontier

structure Simplification where
  module : Module
  frontier : Frontier
  changes : Nat

namespace Func

def additions (f : Func) : List InstId :=
  f.code.filter fun i =>
    match f.graph.inst? i with
    | some (.binary .add _ _) => true
    | _ => false

end Func

namespace Simplification

def fold (ptr : FuncId × ValueId) (r : Simplification) (d : Displacement) : Simplification :=
  match r.module.func? ptr.1 with
  | none => r
  | some f =>
    match f.foldSum r.module.layout ptr.2 d with
    | none => r
    | some (f, pointers) =>
      { module := r.module.updateFunc ptr.1 fun _ => f
        frontier := r.frontier.insertAll (pointers.map (ptr.1, ·))
        changes := r.changes + 1 }

def foldAll (r : Simplification) (ptr : FuncId × ValueId) : Simplification :=
  match r.module.func? ptr.1 with
  | none => r
  -- The displacements are those before the first of them is folded.
  | some f => (f.displacements ptr.2).foldl (fold ptr) r

/-- Folds the displacements of the pointers in the frontier from position `next` on, also of those that
join it on the way, but of at most `n` pointers. -/
def foldFrom : (n next : Nat) → Simplification → Simplification
  | 0, _, r => r
  | n + 1, next, r =>
    match r.frontier.pointers[next]? with
    | none => r
    | some ptr => foldFrom n (next + 1) (r.foldAll ptr)

/-- How many pointers there can be in the frontier: each fold takes one addition away and makes at most
two pointers. -/
def pointerBound (r : Simplification) : Nat :=
  r.frontier.size + 2 * (r.module.funcs.toList.flatMap Func.additions).length

def foldFrontier (r : Simplification) : Simplification :=
  foldFrom r.pointerBound 0 r

def sink (id : FuncId) (r : Simplification) (phi : InstId) : Simplification :=
  match r.module.func? id with
  | none => r
  | some f =>
    let (f, ptr) := f.sink phi
    let r := { r with module := r.module.updateFunc id fun _ => f }
    match ptr with
    | none => r
    | some ptr => { r with frontier := r.frontier.insert (id, ptr), changes := r.changes + 1 }

def sinkAll (r : Simplification) (id : FuncId) : Simplification :=
  match r.module.func? id with
  | none => r
  | some f =>
    (f.code.filter (f.graph.isSinkable r.module.layout.pointerInt)).foldl (sink id) r

def removeDead (r : Simplification) (id : FuncId) : Simplification :=
  { r with module := r.module.updateFunc id fun f => f.removeDead.1 }

/-- One round, which counts its own changes only. -/
def round (m : Module) (fr : Frontier) : Simplification :=
  let r := foldFrontier ⟨m, fr, 0⟩
  -- No dead code is removed before all phis are sunk, also in other functions.
  let ids := r.module.definedFuncs
  ids.foldl removeDead (ids.foldl sinkAll r)

end Simplification

structure Simplified extends Simplification where
  warnings : List Warning

namespace Module

/-- Up to `n` more rounds, after `total` changes. -/
def simplifyRounds (limit : Nat) : Nat → Module → Frontier → Nat → Simplified
  | 0, m, fr, total => ⟨⟨m, fr, total⟩, [.noFixpoint limit]⟩
  | n + 1, m, fr, total =>
    let r := Simplification.round m fr
    if r.changes = 0 then ⟨⟨r.module, r.frontier, total⟩, []⟩
    else simplifyRounds limit n r.module r.frontier (total + r.changes)

def simplifyPointers (m : Module) (fr : Frontier) (limit : Nat) : Simplified :=
  m.simplifyRounds limit limit fr 0

end Module

end VarRecovery
