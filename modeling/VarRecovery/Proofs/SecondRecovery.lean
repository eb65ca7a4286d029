import Mathlib
import VarRecovery.Proofs.Access.Recorded
import VarRecovery.Proofs.EntityNames
import VarRecovery.Proofs.EntityPointers
import VarRecovery.Proofs.Placement
import VarRecovery.Proofs.Recovery
import VarRecovery.Proofs.Region.Globals
import VarRecovery.Proofs.Region.Progress
import VarRecovery.Proofs.Region.Retyping
import VarRecovery.Proofs.Stages

/-!
Recovering a program that was recovered. What the first recovery declared is found, what it lowered is gone, and the
pointers that the second one starts from were simplified, so it has nothing to do unless cells were left.
-/

set_option autoImplicit false

namespace VarRecovery

namespace Recovering

variable {α : Type} {ws : List Warning}

theorem run_lift {x : Except RecoveryError α} {a : α} (ok : x = .ok a) :
    (liftM x : Recovering α).run.run ws = (.ok a, ws) := by
  rw [ok]
  rfl

end Recovering

namespace Module

variable {m n : Module} {image : Image} {start : String} {t u : EntityTable} {ws stop : List Warning}

/-! ### What a recovery keeps -/

theorem placeImage_formed (formed : m.Formed) (run : (m.placeImage image).run.run ws = (.ok (n, t), stop)) :
    n.Formed :=
  placeImage_forall (fun s => Func.formed_declare s []) formed run

theorem buildFrames_writesForm {fixed : Prop} {redzone : Nat} {stack : List (FuncId × List Cell)}
    {cursor last : EntryCursor} {fr fr' : Frontier}
    (run : (buildFrames image redzone stack m cursor fr).run.run ws = (.ok (n, last, fr'), stop)) :
    m.WritesForm fixed cursor n last := by
  induction stack generalizing m cursor fr ws with
  | nil =>
    obtain ⟨done, -⟩ := Recovering.pure_ok run
    cases done
    exact .refl _ _
  | cons s stack ih =>
    obtain ⟨⟨m₁, cursor₁, frame⟩, _, first, rest⟩ := Recovering.bind_ok run
    exact (buildFrame_writesForm first).trans (ih rest)

theorem Accesses.takes {c : Cell} (accesses : m.Accesses start c) (sizes : ∀ id ∈ m.definedFuncs, m.Sizes start id) :
    FieldList.Takes m.layout c.ty c.size := by
  obtain ⟨f, found, body, use, member, cell⟩ := accesses
  obtain ⟨-, i, -, same⟩ := Collection.mem_cellsOf.mp cell
  have sized := sizes c.func (mem_definedFuncs.mpr ⟨f, found, body⟩) f found use member
  have ty : c.ty = use.ty := congrArg Cell.ty same
  have size : c.size = m.accessSize f use.ty := congrArg Cell.size same
  rw [ty, size]
  unfold sizeOfAccess at sized
  unfold FieldList.Takes
  split at sized
  next code => rw [if_pos code]; exact (Except.ok.inj sized).symm
  next data =>
    rw [if_neg data]
    split at sized
    next known => rw [known, Except.ok.inj sized]
    next => cases sized

theorem Reworks.globals (reworks : m.Reworks n) : n.globals = m.globals :=
  (congrArg Module.globals reworks.rest :)

theorem Reworks.target (reworks : m.Reworks n) : n.target = m.target :=
  (congrArg Module.target reworks.rest :)

theorem Reworks.getElem?_names (reworks : m.Reworks n) (id : FuncId) :
    (n.func? id).map (·.signature.name) = (m.func? id).map (·.signature.name) := by
  cases before : m.func? id with
  | none =>
    have absent : n.func? id = none :=
      Option.not_isSome_iff_eq_none.mp fun there => by simpa [before] using reworks.known id there
    rw [absent]
  | some f =>
    obtain ⟨g, after, same⟩ := reworks.func id f before
    rw [after, Option.map_some, Option.map_some, same.signature]

theorem Reworks.declares (reworks : m.Reworks n) : m.Declares n := by
  refine ⟨prefix_of_getElem? fun i name found => ?_, ?_⟩
  · rw [Module.getElem?_names] at found ⊢
    rw [reworks.getElem?_names, found]
  · rw [Module.symbols, Module.symbols, reworks.globals]

theorem Reworks.isLowered (reworks : m.Reworks n) (lowered : m.IsLowered start) : n.IsLowered start := by
  intro id g found i listed callee args ret call intrinsic known
  obtain ⟨f, before, same⟩ := reworks.before found
  obtain ⟨old, values, there, -⟩ := same.call listed call
  refine lowered id f before i old callee values ret there intrinsic ?_
  rwa [intrinsic?, funcName, reworks.getElem?_names] at known

end Module

namespace Stages

variable {m : Module} {image : Image} {config : RecoveryConfig}

/-! ### The first recovery -/

theorem frames_keep (s : Stages m image config) : s.collected.KeepsForm True s.framed := by
  obtain ⟨_, _, run⟩ := s.buildFrames
  exact (Module.buildFrames_writesForm run (EntryCursor.isInner_start s.collected)).1

theorem keeps_framed (s : Stages m image config) : s.placed.KeepsForm True s.framed ∧ s.cursor.IsInner s.framed := by
  obtain ⟨_, _, run⟩ := s.buildFrames
  obtain ⟨keeps, inner⟩ := Module.buildFrames_writesForm run (EntryCursor.isInner_start s.collected)
  exact ⟨(Module.collect_keepsForm s.collect).trans keeps, inner⟩

theorem globals_keep (s : Stages m image config) : s.framed.KeepsForm False s.built := by
  obtain ⟨_, _, run⟩ := s.buildGlobals
  exact (Module.buildGlobals_writesForm run s.keeps_framed.2).1

theorem lowering_keeps (s : Stages m image config) :
    s.built.KeepsForm True s.lowering.module ∧ s.lowering.module.IsLowered config.intrinsicStart :=
  Module.lower_keepsForm s.lower

theorem keeps (s : Stages m image config) : s.placed.KeepsForm False s.lowering.module :=
  (s.keeps_framed.1.weaken.trans s.globals_keep).trans s.lowering_keeps.1.weaken

theorem sound (s : Stages m image config) (tracked : m.Tracked) (closed : m.Closed) (formed : m.Formed) :
    s.lowering.module.Sound False True False := by
  obtain ⟨_, _, place⟩ := s.place
  exact (s.keeps.formed (Module.placeImage_formed formed place)).sound (s.tracked tracked closed)

theorem retypes (s : Stages m image config) : s.entities.Retypes s.framed s.built s.table := by
  obtain ⟨_, _, run⟩ := s.buildGlobals
  obtain ⟨-, sizes, -⟩ := Module.collect_ok s.collect
  refine Module.buildGlobals_retypes s.keeps_framed.2 (fun c member => ?_) run
  have takes := (Module.collect_globals s.collect c member).takes sizes
  rwa [Module.layout, ← s.frames_keep.target] at takes

/-- Variables have the types they had, or lie in the table and have a size. -/
theorem global? (s : Stages m image config) {id : GlobalId} {v : GlobalVar} (known : s.placed.global? id = some v) :
    ∃ w, s.lowering.module.global? id = some w ∧
      (w = v ∨ (s.lowering.module.layout.allocSize? w.ty).isSome ∧ s.table.Contains (.var id)) := by
  obtain ⟨v', framed, -, same⟩ := s.keeps_framed.1.global id v known
  obtain ⟨w, built, either⟩ := s.retypes.global id v' framed
  obtain ⟨w', lowered, -, same'⟩ := s.lowering_keeps.1.global id w built
  cases same trivial
  cases same' trivial
  refine ⟨_, lowered, either.imp_right fun ⟨sized, place⟩ => ⟨?_, place⟩⟩
  rwa [Module.layout, s.lowering_keeps.1.target]

/-! ### What it leaves -/

variable {s : Stages m image config}

theorem reworks (s : Stages m image config) (tracked : m.Tracked) (closed : m.Closed) (formed : m.Formed) :
    s.lowering.module.Reworks s.result.module :=
  Module.simplifyPointers_reworks (.inl trivial) (s.sound tracked closed formed) s.pointers config.maxRounds

theorem result_formed (s : Stages m image config) (tracked : m.Tracked) (closed : m.Closed) (formed : m.Formed) :
    s.result.module.Formed := by
  have sound := s.sound tracked closed formed
  have steps := Module.simplifyPointers_leads (.inl trivial) sound s.pointers config.maxRounds
  intro id g found
  obtain ⟨f, before, same⟩ := (s.reworks tracked closed formed).before found
  have after := steps.sound sound id g found
  refine ⟨after.ends, after.grounded trivial, fun v member => ?_⟩
  obtain ⟨_, _, place⟩ := s.place
  have args := (s.keeps.formed (Module.placeImage_formed formed place) id f before).args v (same.args ▸ member)
  obtain ⟨val, known⟩ := Graph.exists_value args
  exact Graph.value?_lt (same.graph.value v val known)

theorem declares (s : Stages m image config) (reworks : s.lowering.module.Reworks s.result.module) :
    s.placed.Declares s.result.module :=
  s.keeps.declares.trans reworks.declares

/-- A variable that has a size has one afterwards. It is the same, or the variable lies in the table. -/
theorem hasSize (reworks : s.lowering.module.Reworks s.result.module) {id : GlobalId} (sized : s.placed.HasSize id) :
    s.result.module.HasSize id ∧
      (s.placed.variableSize id = s.result.module.variableSize id ∨ s.table.Contains (.var id)) := by
  obtain ⟨v, known, size⟩ := sized
  obtain ⟨w, lowered, either⟩ := s.global? known
  have after : s.result.module.global? id = some w := by
    rw [← lowered, Module.global?, reworks.globals, Module.global?]
  have layout : s.result.module.layout = s.placed.layout := by
    rw [Module.layout, reworks.target, s.keeps.target, Module.layout]
  have layout' : s.lowering.module.layout = s.placed.layout := by rw [Module.layout, s.keeps.target, Module.layout]
  rcases either with rfl | ⟨whole, place⟩
  · refine ⟨⟨w, after, layout ▸ size⟩, .inl ?_⟩
    rw [Module.variableSize, known, Module.variableSize, after, layout]
  · exact ⟨⟨w, after, layout ▸ layout' ▸ whole⟩, .inr place⟩

/-- The image is placed once more, at entities that were placed. -/
theorem place_again (reworks : s.lowering.module.Reworks s.result.module)
    (fits : ∀ id, Module.Contested (m.declareImage image).2.2 id →
      s.placed.variableSize id ≤ s.result.module.variableSize id) (ws : List Warning) :
    ∃ u stop, (s.result.module.placeImage image).run.run ws = (.ok (s.result.module, u), stop) ∧
      ∀ e, u.Contains e → s.table.Contains e := by
  obtain ⟨_, _, place⟩ := s.place
  obtain ⟨funcs, vars, u, mid, mid', stop, known, declared, placed, placed', run⟩ :=
    Module.placeImage_again place (s.declares reworks) (fun id sized => (s.hasSize reworks sized).1) ws
  rw [declared] at fits
  have known' (v : Nat × GlobalId) (member : v ∈ vars) : (s.result.module.global? v.2).isSome := by
    obtain ⟨w, there, -⟩ := (s.hasSize reworks (known v member).2).1
    rw [there]
    rfl
  refine ⟨u, stop, run, ?_⟩
  rintro e ⟨a, found⟩
  rw [Module.get?_placeImage known' placed'] at found
  rcases Module.holder?_of_grown fits found with before | ⟨id, rfl, listed, changed⟩
  · rw [← Module.get?_placeImage (fun v member => (known v member).1) placed] at before
    exact ⟨a, s.retypes.get a e before⟩
  · -- A variable of another size was retyped, so it lies in the table.
    exact (s.hasSize reworks (known _ listed).2).2.resolve_left changed

/-- Whatever is placed once more, the program stays as it is. -/
theorem placed_again (reworks : s.lowering.module.Reworks s.result.module) {n : Module} {u : EntityTable}
    {ws stop : List Warning} (run : (s.result.module.placeImage image).run.run ws = (.ok (n, u), stop)) :
    n = s.result.module := by
  obtain ⟨_, _, place⟩ := s.place
  -- All that the image declares is found by name.
  obtain ⟨funcs, vars, -, declared, -⟩ := Module.placeImage_ok place
  obtain ⟨_, _, _, again, -, -, later⟩ := Module.declareImage_again m image
  cases declared.symm.trans again
  obtain ⟨_, _, -, declared', -⟩ := Module.placeImage_ok run
  cases declared'.symm.trans (later _ (s.declares reworks))
  rfl

/-- Nothing is left to simplify, also from the pointers that a second recovery starts with. -/
theorem settled (s : Stages m image config) (tracked : m.Tracked) (closed : m.Closed) (formed : m.Formed)
    (quiet : s.simplified.warnings = []) {u : EntityTable} (held : ∀ e, u.Contains e → s.table.Contains e) :
    Simplification.Settled s.result.module (Frontier.empty.insertAll (s.result.module.entityPointers u)) ∧
      Simplification.Tidy s.result.module := by
  have sound := s.sound tracked closed formed
  obtain ⟨settled, tidy⟩ := Module.simplifyRounds_settled sound quiet
  refine ⟨⟨fun ptr member => settled.folded ptr ?_, settled.sunk⟩, tidy⟩
  have pointer := (Frontier.mem_insertAll.mp member).resolve_left List.not_mem_nil
  obtain ⟨_, _, place⟩ := s.place
  have valid (id : FuncId) (f : Func) (found : s.lowering.module.func? id = some f) := (sound id f found).valid
  have args := s.keeps.formed (Module.placeImage_formed formed place)
  have reworks := s.reworks tracked closed formed
  have before := reworks.entityPointers valid (fun id f found => (args id f found).args) held pointer
  exact (Module.simplifyPointers_grows _ s.pointers config.maxRounds).1 (Frontier.mem_insertAll.mpr (.inr before))

end Stages

/-- A recovery found nothing to do in a program, and did nothing. -/
structure Recovered.IsIdle (m : Module) (r : Recovered) : Prop where
  frames : r.frames = 0
  globals : r.globalsCreated = 0
  lowered : r.intrinsicsLowered = 0
  changes : r.changes = 0
  insts : ∀ id, (r.module.graph id).insts = (m.graph id).insts
  listing : ∀ id, r.module.listing id = m.listing id
  vars : r.module.globals = m.globals

namespace Module

variable {m n : Module} {image : Image} {config : RecoveryConfig} {t u : EntityTable} {ws stop : List Warning}

/-! ### The second recovery -/

theorem simplifyPointers_warnings (m : Module) (fr : Frontier) (limit : Nat) :
    (m.simplifyPointers fr limit).warnings = [] ∨ (m.simplifyPointers fr limit).warnings = [.noFixpoint limit] := by
  have rounds (n : Nat) (m : Module) (fr : Frontier) (total : Nat) : (m.simplifyRounds limit n fr total).warnings = [] ∨
      (m.simplifyRounds limit n fr total).warnings = [.noFixpoint limit] := by
    induction n generalizing m fr total with
    | zero => exact .inr rfl
    | succ n ih =>
      unfold simplifyRounds
      dsimp only
      split
      next => exact .inl rfl
      next => exact ih _ _ _
  exact rounds limit m fr 0

theorem run_buildGlobals_nil (m : Module) (t : EntityTable) (cursor : EntryCursor) (ws : List Warning) :
    (m.buildGlobals t [] cursor).run.run ws = (.ok (m, t, cursor, ⟨0, []⟩), ws) := by
  have sorted : Cell.sort (.ofTable m t []) m.layout [] = [] := List.mergeSort_nil
  unfold buildGlobals
  rw [sorted]
  exact congrArg (Prod.mk _) (List.append_nil ws)

/-- Where an image is placed without a change and nothing is collected, lowered or simplified, recovery does nothing. -/
theorem run_recover_of_settled (placed : (m.placeImage image).run.run ws = (.ok (m, u), stop))
    (collected : m.collect image config.intrinsicStart = .ok (m, .empty)) (lowered : m.IsLowered config.intrinsicStart)
    (settled : Simplification.Settled m (Frontier.empty.insertAll (m.entityPointers u)))
    (tidy : Simplification.Tidy m) :
    ∃ stop', (m.recover image config).run.run ws = (.ok ⟨m, 0, 0, 0, 0, 0⟩, stop') := by
  have simplified := simplifyPointers_of_settled settled tidy config.maxRounds
  unfold recover
  rw [Recovering.run_bind placed, Recovering.run_bind (Recovering.run_lift collected)]
  dsimp only [Cells.empty, buildFrames]
  rw [pure_bind]
  dsimp only
  rw [Recovering.run_bind (run_buildGlobals_nil ..),
    Recovering.run_bind (Recovering.run_lift (lower_of_isLowered lowered))]
  dsimp only
  rw [Recovering.run_bind (Recovering.run_warnAll ..)]
  refine ⟨_, Prod.ext (congrArg Except.ok ?_) rfl⟩
  exact congrArg (fun s : Simplification => (⟨s.module, 0, 0, 0, 0, s.changes⟩ : Recovered)) simplified

/-- In a program that has no expression to write out, nothing but cells can come of a collection. -/
theorem collect_of_retains {start : String} {cells : Cells} (formed : m.Formed)
    (collected : m.collect image start = .ok (n, cells)) (same : n.Retains m) : n = m := by
  obtain ⟨rfl, -⟩ := collect_ok collected
  exact materialize_eq_self formed same

/-- A recovery that changed nothing had no expression to write out, and collected nothing. -/
theorem collect_of_isIdle (s : Stages m image config) (placed : s.placed = m) (formed : m.Formed)
    (idle : s.result.IsIdle m) : m.collect image config.intrinsicStart = .ok (m, .empty) := by
  obtain ⟨_, _, built⟩ := s.buildGlobals
  have frames := s.frames_keep.retains
  have globals := s.globals_keep.retains
  have lowered := s.lowering_keeps.1.retains
  have simplified : s.lowering.module.Retains s.result.module := (simplifyPointers_grows _ s.pointers config.maxRounds).2
  have rest : s.built.Retains m := fun id =>
    idle.insts id ▸ Nat.le_trans (lowered id) (simplified id)
  have found := s.collect
  rw [placed] at found
  -- Functions only grow, and in the end none has: so no expression was written out, ...
  have same : s.collected = m := collect_of_retains formed found ((frames.trans globals).trans rest)
  have stack : s.cells.stack = [] := List.length_eq_zero_iff.mp idle.frames
  -- ... and no cell was there, as the first one would have been redirected to a new cast.
  have cells : s.cells.globals = [] := by
    refine Classical.byContradiction fun some_ => ?_
    obtain ⟨f, grows⟩ := buildGlobals_grows s.keeps_framed.2 some_ built
    have before := frames f
    have after := rest f
    rw [same] at before
    omega
  have none_ : s.cells = .empty := congrArg₂ Cells.mk stack cells
  rw [found, same, none_]

theorem recover_formed (tracked : m.Tracked) (closed : m.Closed) (formed : m.Formed) {r : Recovered}
    (run : (m.recover image config).warnings.1 = .ok r) : r.module.Formed := by
  obtain ⟨stop, run⟩ := Recovering.warnings_ok run
  obtain ⟨s, rfl, -⟩ := recover_stages run
  exact s.result_formed tracked closed formed

theorem formed_twoReads : twoReads.Formed := by
  intro id f found
  match id with
  | ⟨0⟩ => cases found; exact ⟨by decide +kernel, by decide +kernel, by decide +kernel⟩
  | ⟨1⟩ => cases found; exact Func.formed_declare _ _
  | ⟨_ + 2⟩ => cases found

/-- Here code reads its first bytes and the ones behind them. -/
def readImage : Image where
  kindAt address := if 4096 ≤ address ∧ address < 4112 then .global else .unknown
  stackPointer := none
  funcs := [⟨4096, ⟨"read", .exported, [], .unit, none, false, false⟩, [], [], ⟨.int .i64, .memory "RSP" 0⟩, "RSP", 8, 0⟩]
  vars := []

end Module

end VarRecovery
