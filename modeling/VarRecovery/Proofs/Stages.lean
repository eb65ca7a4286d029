import VarRecovery.Proofs.Recovering
import VarRecovery.Recovery

/-!
The stages of a recovery, and what each of them gave to the next.
-/

set_option autoImplicit false

namespace VarRecovery

/-- A step gives a result, whatever it was warned of before. -/
def Recovering.Gives {α : Type} (x : Recovering α) (a : α) : Prop :=
  ∃ ws stop, x.run.run ws = (.ok a, stop)

/-- A recovery that succeeds. -/
structure Stages (m : Module) (image : Image) (config : RecoveryConfig) where
  placed : Module
  entities : EntityTable
  collected : Module
  cells : Cells
  framed : Module
  cursor : EntryCursor
  frames : Frontier
  built : Module
  table : EntityTable
  last : EntryCursor
  globals : BuiltGlobals
  lowering : Lowering
  place : (m.placeImage image).Gives (placed, entities)
  collect : placed.collect image config.intrinsicStart = .ok (collected, cells)
  buildFrames : (Module.buildFrames image config.redzone cells.stack collected .start .empty).Gives (framed, cursor, frames)
  buildGlobals : (framed.buildGlobals entities cells.globals cursor).Gives (built, table, last, globals)
  lower : built.lower config.intrinsicStart = .ok lowering

namespace Stages

variable {m : Module} {image : Image} {config : RecoveryConfig}

/-- The frontier that simplification starts from. -/
def pointers (s : Stages m image config) : Frontier :=
  ((s.frames.insertAll s.globals.pointers).insertAll s.lowering.pointers).insertAll
    (s.lowering.module.entityPointers s.table)

def simplified (s : Stages m image config) : Simplified :=
  s.lowering.module.simplifyPointers s.pointers config.maxRounds

def result (s : Stages m image config) : Recovered where
  module := s.simplified.module
  cells := s.cells.size
  frames := s.cells.stack.length
  globalsCreated := s.globals.created
  intrinsicsLowered := s.lowering.lowered
  changes := s.simplified.changes

end Stages

namespace Module

variable {m : Module} {image : Image} {config : RecoveryConfig} {r : Recovered} {ws stop : List Warning}

theorem recover_stages (run : (m.recover image config).run.run ws = (.ok r, stop)) :
    ∃ s : Stages m image config, r = s.result ∧ ∀ w ∈ s.simplified.warnings, w ∈ stop := by
  obtain ⟨⟨m₁, t⟩, _, placed, run⟩ := Recovering.bind_ok run
  obtain ⟨⟨m₂, cells⟩, _, collected, run⟩ := Recovering.bind_ok run
  obtain ⟨collected, -⟩ := Recovering.lift_ok collected
  obtain ⟨⟨m₃, cursor, fr⟩, _, framed, run⟩ := Recovering.bind_ok run
  obtain ⟨⟨m₄, u, last, globals⟩, _, built, run⟩ := Recovering.bind_ok run
  obtain ⟨lowering, _, lowered, run⟩ := Recovering.bind_ok run
  obtain ⟨lowered, -⟩ := Recovering.lift_ok lowered
  obtain ⟨_, mid, warned, run⟩ := Recovering.bind_ok run
  obtain ⟨done, same⟩ := Recovering.pure_ok run
  refine ⟨⟨m₁, t, m₂, cells, m₃, cursor, fr, m₄, u, last, globals, lowering, ⟨_, _, placed⟩, collected, ⟨_, _, framed⟩,
    ⟨_, _, built⟩, lowered⟩, done.symm, fun w member => ?_⟩
  cases warned
  rw [same]
  exact List.mem_append_right _ member

end Module

end VarRecovery
