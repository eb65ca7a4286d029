import VarRecovery.Proofs.Pointer.Effects
import VarRecovery.Proofs.Pointer.Fixpoint

/-!
What simplification leaves of what it starts from: pointers stay in the frontier, no instruction is forgotten, and
functions keep their arguments, calls and the addresses of variables and functions that they use.
-/

set_option autoImplicit false

namespace VarRecovery

namespace Frontier

variable {fr : Frontier} {p q : FuncId × ValueId} {ps : List (FuncId × ValueId)}

theorem mem_insert : q ∈ (fr.insert p).pointers ↔ q ∈ fr.pointers ∨ q = p := by
  unfold insert
  split
  next member => exact ⟨.inl, fun either => either.elim id fun same => same ▸ member⟩
  next => simp

theorem mem_insertAll : q ∈ (fr.insertAll ps).pointers ↔ q ∈ fr.pointers ∨ q ∈ ps := by
  induction ps generalizing fr with
  | nil => simp [insertAll]
  | cons p ps ih =>
    rw [List.mem_cons, ← or_assoc, ← mem_insert]
    exact ih

end Frontier

namespace Func

variable {f g : Func}

/-- No instruction is forgotten, listed or not. -/
def Retains (f g : Func) : Prop :=
  f.graph.insts.size ≤ g.graph.insts.size

theorem Retains.refl (f : Func) : f.Retains f :=
  Nat.le_refl _

theorem Retains.trans {h : Func} (first : f.Retains g) (second : g.Retains h) : f.Retains h :=
  Nat.le_trans first second

theorem retains_addImm (f : Func) (i : Imm) : f.Retains (f.addImm i).1 :=
  Nat.le_of_eq (congrArg Array.size (f.graph.insts_addImm i).symm)

theorem retains_insert (f : Func) (inst : Inst) (ty : Ty) (place : Place) : f.Retains (f.insert inst ty place).1 := by
  rw [Retains, graph_insert, Graph.size_insts_emit]
  exact Nat.le_succ _

theorem retains_remove (f : Func) (i : InstId) : f.Retains (f.remove i) :=
  Nat.le_of_eq (congrArg (fun g : Graph => g.insts.size) (f.graph.untrack_eq i).1.symm :)

/-- One value takes the place of another, whose instruction is taken out. -/
theorem retains_replace (f : Func) (old new : ValueId) (i : InstId) :
    f.Retains ((f.updateGraph (·.replaceUses old new)).remove i) :=
  Retains.trans (Nat.le_of_eq (f.graph.replaceUses_eq old new).2.2.symm) (retains_remove _ i)

theorem retains_addOffsets (L : DataLayout) (f : Func) (offsets : List Nat) : f.Retains (addOffsets L f offsets).1 := by
  induction offsets generalizing f with
  | nil => exact .refl f
  | cons n offsets ih => exact (f.retains_addImm _).trans (ih _)

theorem retains_insertPath (L : DataLayout) (f : Func) (ptr : ValueId) (path : TyPath) (castTy : Option Ty)
    (anchor : InstId) : f.Retains (insertPath L f ptr path castTy anchor).1 := by
  unfold insertPath
  have part := (f.retains_addOffsets L path.indices).trans
    (retains_insert _ (.gep ptr (addOffsets L f path.indices).2) (.ptr path.ty) (.before anchor))
  dsimp only
  split
  next => exact part
  next => exact ((part.trans (retains_insert ..)).trans (retains_addImm ..)).trans (retains_insert ..)

theorem retains_foldSum {L : DataLayout} {ptr : ValueId} {d : Displacement} {pointers : List ValueId}
    (folds : f.foldSum L ptr d = some (g, pointers)) : f.Retains g := by
  unfold foldSum at folds
  simp only [Option.bind_eq_bind, Option.bind_eq_some_iff] at folds
  obtain ⟨offset, -, sum, -, pointee, -, path, -, done⟩ := folds
  cases done
  exact ((retains_insertPath ..).trans (retains_insert ..)).trans (retains_replace ..)

theorem retains_castIncoming (ty : Ty) (f : Func) (incoming : List (ValueId × BlockId)) :
    f.Retains (castIncoming ty f incoming).1 := by
  induction incoming generalizing f with
  | nil => exact .refl f
  | cons e rest ih =>
    unfold castIncoming
    dsimp only
    split
    next => exact ih f
    next =>
      split
      next => exact .refl f
      next => exact (retains_insert ..).trans (ih _)

theorem retains_sink (f : Func) (old : InstId) : f.Retains (f.sink old).1 := by
  unfold sink
  split
  next result block _ _ =>
    dsimp only
    split
    next => exact .refl f
    next ty _ =>
      have cast := f.retains_castIncoming ty (f.graph.uncastIncoming old)
      split
      next done => exact congrArg Prod.fst done ▸ cast
      next done =>
        rw [done] at cast
        refine cast.trans ?_
        unfold insertSunk
        dsimp only
        split
        next => exact retains_insert ..
        next => exact ((retains_insert ..).trans (retains_insert ..)).trans (retains_replace ..)
  next => exact .refl f

theorem retains_removeDeadFrom (f : Func) (work : List InstId) : f.Retains (f.removeDeadFrom work).1 :=
  removeDeadFrom_keeps (P := f.Retains) (fun g i _ _ before => before.trans (g.retains_remove i)) (.refl f) work

end Func

namespace Module

/-- The same for the functions of a program. -/
def Retains (m n : Module) : Prop :=
  ∀ id, (m.graph id).insts.size ≤ (n.graph id).insts.size

variable {m n k : Module}

theorem Retains.refl (m : Module) : m.Retains m :=
  fun _ => Nat.le_refl _

theorem Retains.trans (first : m.Retains n) (second : n.Retains k) : m.Retains k :=
  fun id => Nat.le_trans (first id) (second id)

theorem retains_updateFunc (m : Module) (id : FuncId) {change : Func → Func}
    (retains : ∀ f, m.func? id = some f → f.Retains (change f)) : m.Retains (m.updateFunc id change) := by
  intro j
  unfold graph
  rw [func?_updateFunc]
  split
  next here =>
    subst here
    cases found : m.func? j with
    | none => exact Nat.le_refl _
    | some f => exact retains f found
  next => exact Nat.le_refl _

end Module

namespace Simplification

/-- Pointers stay in the frontier, and no instruction is forgotten. -/
structure Grows (r s : Simplification) : Prop where
  pointers : r.frontier.pointers ⊆ s.frontier.pointers
  module : r.module.Retains s.module

variable {r s q : Simplification}

theorem Grows.refl (r : Simplification) : r.Grows r :=
  ⟨List.Subset.refl _, .refl _⟩

theorem Grows.trans (first : r.Grows s) (second : s.Grows q) : r.Grows q :=
  ⟨List.Subset.trans first.pointers second.pointers, first.module.trans second.module⟩

theorem grows_fold (ptr : FuncId × ValueId) (r : Simplification) (d : Displacement) : r.Grows (fold ptr r d) := by
  unfold fold
  split
  next => exact .refl r
  next f found =>
    split
    next => exact .refl r
    next g pointers folds =>
      refine ⟨fun p member => Frontier.mem_insertAll.mpr (.inl member), ?_⟩
      refine r.module.retains_updateFunc ptr.1 fun other again => ?_
      cases found.symm.trans again
      exact Func.retains_foldSum folds

theorem grows_foldAll (r : Simplification) (ptr : FuncId × ValueId) : r.Grows (r.foldAll ptr) := by
  unfold foldAll
  split
  next => exact .refl r
  next => exact List.foldlRecOn _ (fold ptr) (.refl r) fun s before d _ => before.trans (grows_fold ptr s d)

theorem grows_sink (id : FuncId) (r : Simplification) (phi : InstId) : r.Grows (sink id r phi) := by
  unfold sink
  split
  next => exact .refl r
  next f found =>
    have sunk : r.module.Retains (r.module.updateFunc id fun _ => (f.sink phi).1) := by
      refine r.module.retains_updateFunc id fun other again => ?_
      cases found.symm.trans again
      exact f.retains_sink phi
    dsimp only
    split
    next => exact ⟨List.Subset.refl _, sunk⟩
    next => exact ⟨fun p member => Frontier.mem_insert.mpr (.inl member), sunk⟩

theorem grows_sinkAll (r : Simplification) (id : FuncId) : r.Grows (r.sinkAll id) := by
  unfold sinkAll
  split
  next => exact .refl r
  next => exact List.foldlRecOn _ (sink id) (.refl r) fun s before phi _ => before.trans (grows_sink id s phi)

theorem grows_removeDead (r : Simplification) (id : FuncId) : r.Grows (r.removeDead id) :=
  ⟨List.Subset.refl _, r.module.retains_updateFunc id fun f _ => f.retains_removeDeadFrom _⟩

theorem grows_round (m : Module) (fr : Frontier) : Grows ⟨m, fr, 0⟩ (round m fr) :=
  round_induction (P := Grows ⟨m, fr, 0⟩) (fun r ptr before => before.trans (grows_foldAll r ptr))
    (fun r id before => before.trans (grows_sinkAll r id)) (fun r id before => before.trans (grows_removeDead r id)) (.refl _)

end Simplification

namespace Module

theorem simplifyPointers_grows (m : Module) (fr : Frontier) (limit : Nat) :
    fr.pointers ⊆ (m.simplifyPointers fr limit).frontier.pointers ∧
      m.Retains (m.simplifyPointers fr limit).module := by
  have grows : Simplification.Grows ⟨m, fr, 0⟩ (m.simplifyPointers fr limit).toSimplification := by
    refine simplifyRounds_induction (P := Simplification.Grows ⟨m, fr, 0⟩) (fun m fr total before => ?_) limit limit
      (.refl _)
    have round := Simplification.grows_round m fr
    exact before.trans ⟨round.pointers, round.module⟩
  exact ⟨grows.pointers, grows.module⟩

end Module

namespace Func

/-- The same function as others see it: new code in it neither calls nor uses further variables or functions. -/
structure Reworks (f g : Func) : Prop where
  signature : g.signature = f.signature
  args : g.args = f.args
  blocks : g.listing.blockIds = f.listing.blockIds
  graph : f.graph.Extends g.graph
  effects : g.effects = f.effects
  fresh : ∀ v val, g.graph.value? v = some val → f.graph.value? v = none →
    (∃ i, val = .imm i) ∨ ∃ i ty, val = .result i ty

variable {typed fed closed : Prop} {f g h : Func} {phis new swept : List InstId} {i : InstId}

theorem Reworks.refl (f : Func) : f.Reworks f :=
  ⟨rfl, rfl, rfl, .refl f.graph, rfl, fun _ _ found absent => by cases absent.symm.trans found⟩

theorem Reworks.trans (first : f.Reworks g) (second : g.Reworks h) : f.Reworks h where
  signature := second.signature.trans first.signature
  args := second.args.trans first.args
  blocks := second.blocks.trans first.blocks
  graph := first.graph.trans second.graph
  effects := second.effects.trans first.effects
  fresh v val found absent := by
    cases between : g.graph.value? v with
    | none => exact second.fresh v val found between
    | some other =>
      obtain rfl := Option.some.inj (found.symm.trans (second.graph.value v other between))
      exact first.fresh v val between absent

theorem Edit.reworks (edit : Edit typed fed closed new f g) (sound : f.Sound typed fed closed) : f.Reworks g := by
  have graph := edit.grows sound.valid
  have effects := edit.effects sound.valid
  have blocks := edit.blockIds
  cases edit with
  | imm i =>
    refine ⟨rfl, rfl, blocks, graph, effects, fun v val found absent => ?_⟩
    replace found : (f.graph.addImm i).1.value? v = some val := found
    rcases Graph.addImm_cases f.graph i with ⟨w, -, same⟩ | new
    · rw [same] at found
      cases absent.symm.trans found
    · rw [new, Graph.value?_addValue, absent] at found
      split at found
      next => cases found; exact .inl ⟨i, rfl⟩
      next => cases found
  | insert ty | phi =>
    refine ⟨rfl, rfl, blocks, graph, effects, fun v val found absent => ?_⟩
    rw [graph_insert, Graph.value?_emit, absent] at found
    split at found
    next => cases found; exact .inr ⟨_, _, rfl⟩
    next => cases found
  | replace =>
    refine ⟨rfl, rfl, blocks, graph, effects, fun v val found absent => ?_⟩
    rw [updateGraph, Graph.value?_replaceUses, absent] at found
    cases found

theorem Edits.reworks (edits : Edits typed fed closed phis swept f g) (sound : f.Sound typed fed closed) :
    f.Reworks g := by
  induction edits with
  | refl => exact .refl _
  | edit before last ih => exact (ih sound).trans (last.reworks (before.sound sound))
  | @sweep f g phis swept i before listed dead ih =>
    refine (ih sound).trans ⟨rfl, rfl, Listing.blockIds_updateAll _ _, .untrack _ _,
      effects_remove (before.sound sound).valid dead, fun v val found absent => ?_⟩
    rw [remove, Graph.value?_untrack, absent] at found
    cases found

theorem mem_effects : i ∈ f.effects.flatMap Prod.snd ↔ i ∈ f.code ∧ f.graph.isEffect i := by
  simp only [effects, code, Listing.allInsts, List.flatMap_map, List.mem_flatMap, List.mem_filter]
  constructor
  · rintro ⟨b, block, inside, effect⟩
    exact ⟨⟨b, block, inside⟩, effect⟩
  · rintro ⟨⟨b, block, inside⟩, effect⟩
    exact ⟨b, block, inside, effect⟩

/-- A call is listed now if it was before. -/
theorem Reworks.call (reworks : f.Reworks g) {callee : FuncId} {args : List ValueId} {ret : Ty} (listed : i ∈ g.code)
    (found : g.graph.inst? i = some (.call callee args ret)) :
    i ∈ f.code ∧ ∃ before, f.graph.inst? i = some (.call callee before ret) ∧ before.length = args.length := by
  have effect : g.graph.isEffect i := by rw [Graph.isEffect, found]; rfl
  obtain ⟨old, effect⟩ := mem_effects.mp (reworks.effects ▸ mem_effects.mpr ⟨listed, effect⟩)
  refine ⟨old, ?_⟩
  cases before : f.graph.inst? i with
  | none => simp [Graph.isEffect, before] at effect
  | some inst =>
    obtain ⟨σ, after, -⟩ := reworks.graph.inst i inst before
    have same : inst.form = (Inst.call callee args ret).form := by
      rw [Option.some.inj (found.symm.trans after), Inst.form_mapOperands]
    obtain ⟨values, rfl, length⟩ := Inst.call_of_form same
    exact ⟨values, rfl, length⟩

end Func

namespace Module

/-- The same program, whose functions are reworked. -/
structure Reworks (m n : Module) : Prop where
  rest : n = { m with funcs := n.funcs }
  func : ∀ id f, m.func? id = some f → ∃ g, n.func? id = some g ∧ f.Reworks g
  known : ∀ id, (n.func? id).isSome → (m.func? id).isSome

variable {m n : Module}

theorem Reworks.before (reworks : m.Reworks n) {id : FuncId} {g : Func} (found : n.func? id = some g) :
    ∃ f, m.func? id = some f ∧ f.Reworks g := by
  obtain ⟨f, before⟩ := Option.isSome_iff_exists.mp (reworks.known id (by rw [found]; rfl))
  obtain ⟨h, after, same⟩ := reworks.func id f before
  cases found.symm.trans after
  exact ⟨f, before, same⟩

theorem simplifyPointers_reworks {typed fed closed : Prop} (guarded : fed ∨ closed) (sound : m.Sound typed fed closed)
    (fr : Frontier) (limit : Nat) : m.Reworks (m.simplifyPointers fr limit).module := by
  have steps := simplifyPointers_leads guarded sound fr limit
  refine ⟨steps.eq_funcs, fun id f found => ?_, fun id there => steps.known there⟩
  exact steps.lifts .refl (fun _ _ _ => .trans) (fun _ _ _ _ sound edits => edits.reworks sound) sound found

end Module

end VarRecovery
