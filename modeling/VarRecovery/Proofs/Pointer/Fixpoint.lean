import VarRecovery.Proofs.Pointer.Decidable
import VarRecovery.Proofs.Pointer.Termination

/-!
What is left when a round changed nothing: no displacement can be folded, no phi sunk, and no code is dead.
Further rounds then change nothing either.
-/

set_option autoImplicit false

namespace VarRecovery

namespace Func

variable {f g : Func}

/-! ### Code with less dead code -/

theorem Remains.displacement? (remains : f.Remains g) (sum : InstId) (base : ValueId) :
    g.graph.displacement? sum base = f.graph.displacement? sum base := by
  simp only [Graph.displacement?, Graph.addend?, Graph.imm?, remains.inst, remains.value]

theorem Remains.ty (remains : f.Remains g) (v : ValueId) : g.graph.ty v = f.graph.ty v := by
  rw [Graph.ty, remains.value, Graph.ty]

theorem Remains.codeUsers (remains : f.Remains g) {v : ValueId} {i : InstId} (user : i ∈ g.codeUsers v) :
    i ∈ f.codeUsers v := by
  obtain ⟨uses, listed⟩ := mem_codeUsers.mp user
  exact mem_codeUsers.mpr ⟨remains.user v i uses, remains.listed i listed⟩

theorem Remains.displacements (remains : f.Remains g) {ptr : ValueId} {d : Displacement}
    (member : d ∈ g.displacements ptr) : d ∈ f.displacements ptr := by
  obtain ⟨address, sum, n, offset, positive⟩ := mem_displacements.mp member
  obtain ⟨i, user, isCast, result⟩ := mem_addresses.mp address
  rw [Graph.isPtrToInt, remains.inst] at isCast
  refine mem_displacements.mpr ⟨mem_addresses.mpr ⟨i, remains.codeUsers user, isCast, ?_⟩,
    remains.codeUsers sum, n, ?_, positive⟩
  · rw [← remains.result, result]
  · rw [← remains.displacement?, offset]

theorem foldSum_isSome_iff {L : DataLayout} {ptr : ValueId} {d : Displacement} :
    (f.foldSum L ptr d).isSome ↔ ∃ offset sum pointee path, f.graph.displacement? d.sum d.base = some offset ∧
      f.graph.result? d.sum = some sum ∧ (f.graph.ty ptr).pointee? = some pointee ∧
      L.path? pointee (Word.wrap offset.toNat) = some path := by
  unfold foldSum
  simp only [Option.isSome_iff_exists, Option.bind_eq_bind, Option.bind_eq_some_iff]
  constructor
  · rintro ⟨whole, offset, at_, sum, result, pointee, points, path, leads, -⟩
    exact ⟨offset, sum, pointee, path, at_, result, points, leads⟩
  · rintro ⟨offset, sum, pointee, path, at_, result, points, leads⟩
    exact ⟨_, offset, at_, sum, result, pointee, points, path, leads, rfl⟩

theorem Remains.foldSum (remains : f.Remains g) {L : DataLayout} {ptr : ValueId} {d : Displacement}
    (none_ : f.foldSum L ptr d = none) : g.foldSum L ptr d = none := by
  rw [← Option.isNone_iff_eq_none, ← Option.not_isSome, Bool.not_eq_true', Bool.eq_false_iff] at *
  intro some_
  refine none_ (foldSum_isSome_iff.mpr ?_)
  simpa only [remains.displacement?, remains.result, remains.ty] using foldSum_isSome_iff.mp some_

theorem Remains.isSinkable (remains : f.Remains g) {ty : Ty} {i : InstId}
    (sinkable : g.graph.isSinkable ty i) : f.graph.isSinkable ty i := by
  have pointerOf? (v : ValueId) : g.graph.pointerOf? v = f.graph.pointerOf? v := by
    simp only [Graph.pointerOf?, Graph.castOf?, Graph.defining?, Graph.definition?, remains.value]
    rw [show g.graph.inst? = f.graph.inst? from funext remains.inst]
  simp only [Graph.isSinkable, remains.inst, remains.result] at sinkable ⊢
  split at sinkable
  next incoming phiTy result _ _ =>
    simp only [remains.ty, pointerOf?, Bool.and_eq_true] at sinkable ⊢
    refine ⟨⟨sinkable.1.1, ?_⟩, sinkable.2⟩
    cases users : f.graph.users result with
    | cons => rfl
    | nil =>
      have none_ : g.graph.users result = [] := List.eq_nil_iff_forall_not_mem.mpr fun j user => by
        simpa [users] using remains.user result j user
      simp [none_] at sinkable
  next => cases sinkable

theorem Remains.hasBody (remains : f.Remains g) : g.hasBody = f.hasBody := by
  rw [Func.hasBody, Listing.entry?, remains.blockIds, Func.hasBody, Listing.entry?]

def Tidy (f : Func) : Prop :=
  ∀ i ∈ f.code, f.isDead i = false

theorem removeDead_of_tidy (tidy : f.Tidy) : f.removeDead.1 = f := by
  rw [removeDead, removeDeadFrom_of_alive tidy]

theorem removeDead_remains (f : Func) : f.Remains f.removeDead.1 :=
  removeDeadFrom_remains f _

end Func

namespace Simplification

variable {typed closed : Prop} {r : Simplification} {m : Module} {fr : Frontier}

def Sunk (m : Module) (id : FuncId) : Prop :=
  ∀ f, m.func? id = some f → ∀ i ∈ f.code, f.graph.isSinkable m.layout.pointerInt i = false

theorem sinkAll_still (sound : r.module.Sound typed True closed) {id : FuncId}
    (same : (r.sinkAll id).changes ≤ r.changes) : r.sinkAll id = r ∧ Sunk r.module id := by
  unfold sinkAll at *
  split at same
  next absent => exact ⟨rfl, by simp [Sunk, absent]⟩
  next f found =>
    have counted := (foldl_sink_leads (.inl trivial) sound found
      (sinkables_code (sound _ _ found).valid r.module.layout.pointerInt)).2 trivial
    have none_ : f.code.filter (f.graph.isSinkable r.module.layout.pointerInt) = [] :=
      List.length_eq_zero_iff.mp (by omega)
    refine ⟨by rw [none_]; rfl, fun g here i listed => ?_⟩
    cases found.symm.trans here
    exact Bool.eq_false_iff.mpr (List.filter_eq_nil_iff.mp none_ i listed)

theorem sinkAll_of_sunk {id : FuncId} (sunk : Sunk r.module id) : r.sinkAll id = r := by
  unfold sinkAll
  split
  next => rfl
  next f found =>
    rw [List.filter_eq_nil_iff.mpr fun i listed => Bool.eq_false_iff.mp (sunk f found i listed)]
    rfl

/-- Nothing is left to fold or to sink. -/
structure Settled (m : Module) (fr : Frontier) : Prop where
  folded : ∀ ptr ∈ fr.pointers, Folded m ptr
  sunk : ∀ id ∈ m.definedFuncs, Sunk m id

theorem round_eq (m : Module) (fr : Frontier) : round m fr =
    (foldFrontier ⟨m, fr, 0⟩).module.definedFuncs.foldl removeDead
      ((foldFrontier ⟨m, fr, 0⟩).module.definedFuncs.foldl sinkAll (foldFrontier ⟨m, fr, 0⟩)) := rfl

theorem foldl_removeDead_rest (ids : List FuncId) (r : Simplification) :
    (ids.foldl removeDead r).frontier = r.frontier ∧ (ids.foldl removeDead r).changes = r.changes := by
  induction ids generalizing r with
  | nil => exact ⟨rfl, rfl⟩
  | cons id ids ih => exact ih (r.removeDead id)

theorem round_still (sound : m.Sound typed True closed) (same : (round m fr).changes = 0) :
    Settled m fr ∧ round m fr = m.definedFuncs.foldl removeDead ⟨m, fr, 0⟩ := by
  rw [round_eq, (foldl_removeDead_rest _ _).2] at same
  have folds : Leads typed True closed ⟨m, fr, 0⟩ (foldFrontier ⟨m, fr, 0⟩) :=
    foldFrom_induction (P := Leads typed True closed ⟨m, fr, 0⟩)
      (fun _ ptr before => before.trans (foldAll_leads (before.sound sound) ptr)) _ 0 (.refl _)
  have grows (r : Simplification) (id : FuncId) (here : r.module.Sound typed True closed) :
      (r.sinkAll id).module.Sound typed True closed ∧ r.changes ≤ (r.sinkAll id).changes :=
    have leads := sinkAll_leads (.inl trivial) here id
    ⟨leads.sound here, leads.changes_le⟩
  -- Neither part of the round counted a change, so each left the module to the next as it was.
  have folded := foldl_grows (fun r => r.module.Sound typed True closed) grows
    (foldFrontier ⟨m, fr, 0⟩).module.definedFuncs (folds.sound sound)
  obtain ⟨first, each⟩ := foldFrontier_still (r := ⟨m, fr, 0⟩) (by omega)
  rw [first] at same
  obtain ⟨second, sinks⟩ := foldl_still (fun r => r.module.Sound typed True closed) grows
    (fun _ _ here still => (sinkAll_still here still).1) sound (Nat.le_of_eq same)
  refine ⟨⟨each, fun id member => (sinkAll_still (r := ⟨m, fr, 0⟩) sound ?_).2⟩, ?_⟩
  · exact Nat.le_of_eq (congrArg changes (sinks id member))
  · rw [round_eq, first, second]

/-! ### Removing dead code from all functions -/

theorem func?_foldl_removeDead {ids : List FuncId} (nodup : ids.Nodup) (r : Simplification) (id : FuncId) :
    (ids.foldl removeDead r).module.func? id =
      (r.module.func? id).map fun f => if id ∈ ids then f.removeDead.1 else f := by
  induction ids generalizing r with
  | nil => simp
  | cons first ids ih =>
    obtain ⟨absent, rest⟩ := List.nodup_cons.mp nodup
    rw [List.foldl_cons, ih rest, removeDead, Module.func?_updateFunc]
    by_cases here : id = first
    · subst here
      simp [absent, Function.comp_def]
    · simp [here]

theorem size_foldl_removeDead (ids : List FuncId) (r : Simplification) :
    (ids.foldl removeDead r).module.funcs.size = r.module.funcs.size ∧
      (ids.foldl removeDead r).module.layout = r.module.layout := by
  induction ids generalizing r with
  | nil => exact ⟨rfl, rfl⟩
  | cons id ids ih =>
    obtain ⟨size, layout⟩ := ih (r.removeDead id)
    exact ⟨size.trans (Array.size_modify ..), layout⟩

def cleared (m : Module) (fr : Frontier) : Simplification :=
  m.definedFuncs.foldl removeDead ⟨m, fr, 0⟩

theorem func?_cleared (m : Module) (fr : Frontier) {id : FuncId} {g : Func}
    (found : (cleared m fr).module.func? id = some g) : ∃ f, m.func? id = some f ∧ f.Remains g ∧
      (id ∈ m.definedFuncs → g = f.removeDead.1) := by
  rw [cleared, func?_foldl_removeDead m.nodup_definedFuncs] at found
  obtain ⟨f, before, rfl⟩ := Option.map_eq_some_iff.mp found
  refine ⟨f, before, ?_, fun member => if_pos member⟩
  split
  · exact f.removeDead_remains
  · exact .refl f

theorem definedFuncs_cleared (m : Module) (fr : Frontier) :
    (cleared m fr).module.definedFuncs = m.definedFuncs := by
  have ids : (cleared m fr).module.funcIds = m.funcIds := by
    rw [Module.funcIds, cleared, (size_foldl_removeDead _ _).1, Module.funcIds]
  rw [Module.definedFuncs, ids, Module.definedFuncs]
  refine List.filter_congr fun id _ => ?_
  rw [cleared, func?_foldl_removeDead m.nodup_definedFuncs]
  cases m.func? id with
  | none => rfl
  | some f =>
    simp only [Option.map_some, Option.getD_some]
    split
    · exact f.removeDead_remains.hasBody
    · rfl

theorem Settled.cleared (settled : Settled m fr) : Settled (cleared m fr).module fr where
  folded ptr member g found d inside := by
    obtain ⟨f, before, remains, -⟩ := func?_cleared m fr found
    have none_ := settled.folded ptr member f before d (remains.displacements inside)
    rw [Simplification.cleared, (size_foldl_removeDead _ _).2]
    exact remains.foldSum none_
  sunk id member g found i listed := by
    rw [definedFuncs_cleared] at member
    obtain ⟨f, before, remains, -⟩ := func?_cleared m fr found
    have sunk := settled.sunk id member f before i (remains.listed i listed)
    rw [Simplification.cleared, (size_foldl_removeDead _ _).2]
    exact Bool.eq_false_iff.mpr fun sinkable =>
      Bool.eq_false_iff.mp sunk (remains.isSinkable sinkable)

def Tidy (m : Module) : Prop :=
  ∀ id ∈ m.definedFuncs, ∀ f, m.func? id = some f → f.Tidy

theorem tidy_cleared (sound : m.Sound typed True closed) (fr : Frontier) : Tidy (cleared m fr).module := by
  intro id member g found
  rw [definedFuncs_cleared] at member
  obtain ⟨f, before, -, same⟩ := func?_cleared m fr found
  rw [same member]
  exact Func.removeDead_alive (sound id f before).valid

theorem removeDead_of_tidy {id : FuncId} (tidy : ∀ f, r.module.func? id = some f → f.Tidy) :
    r.removeDead id = r := by
  rw [removeDead, Module.updateFunc_congr (fun f => f) fun f found =>
    Func.removeDead_of_tidy (tidy f found), Module.updateFunc_id]

theorem round_of_settled (settled : Settled m fr) (tidy : Tidy m) : round m fr = ⟨m, fr, 0⟩ := by
  have each (part : Simplification → FuncId → Simplification) {ids : List FuncId}
      (still : ∀ id ∈ ids, part ⟨m, fr, 0⟩ id = ⟨m, fr, 0⟩) : ids.foldl part ⟨m, fr, 0⟩ = ⟨m, fr, 0⟩ := by
    induction ids with
    | nil => rfl
    | cons id ids ih =>
      rw [List.foldl_cons, still id List.mem_cons_self]
      exact ih fun other member => still other (List.mem_cons_of_mem _ member)
  have folds : foldFrontier ⟨m, fr, 0⟩ = ⟨m, fr, 0⟩ :=
    foldFrom_of_folded (r := ⟨m, fr, 0⟩) settled.folded _ _
  have sinks := each sinkAll fun id member => sinkAll_of_sunk (r := ⟨m, fr, 0⟩) (settled.sunk id member)
  have sweeps := each removeDead fun id member =>
    removeDead_of_tidy (r := ⟨m, fr, 0⟩) (tidy id member)
  rw [round_eq, folds]
  exact (congrArg (m.definedFuncs.foldl removeDead) sinks).trans sweeps

end Simplification

namespace Module

open Simplification

variable {typed closed : Prop} {m : Module}

/-- If rounds end without a warning, the last of them had nothing to change. -/
theorem simplifyRounds_settled (sound : m.Sound typed True closed) {limit n : Nat} {fr : Frontier} {total : Nat}
    (quiet : (m.simplifyRounds limit n fr total).warnings = []) :
    Settled (m.simplifyRounds limit n fr total).module (m.simplifyRounds limit n fr total).frontier ∧
      Tidy (m.simplifyRounds limit n fr total).module := by
  induction n generalizing m fr total with
  | zero => cases quiet
  | succ n ih =>
    unfold simplifyRounds at quiet ⊢
    simp only at quiet ⊢
    split
    next none_ =>
      obtain ⟨settled, same⟩ := round_still sound none_
      have whole : round m fr = cleared m fr := same
      have frontier : (cleared m fr).frontier = fr := (foldl_removeDead_rest _ _).1
      rw [whole]
      refine ⟨?_, tidy_cleared sound fr⟩
      rw [frontier]
      exact settled.cleared
    next some_ =>
      rw [if_neg some_] at quiet
      obtain ⟨_, -, steps⟩ := round_leads (.inl trivial) sound fr
      exact ih (steps.sound sound) quiet

theorem simplifyRounds_quiet (sound : m.Sound True True closed) (limit : Nat) {n : Nat} (enough : m.rewritable < n)
    (fr : Frontier) (total : Nat) : (m.simplifyRounds limit n fr total).warnings = [] := by
  induction n generalizing m fr total with
  | zero => exact absurd enough (Nat.not_lt_zero _)
  | succ n ih =>
    unfold simplifyRounds
    simp only
    split
    -- A round without changes ends it; one with changes leaves less to take out for the others.
    next none_ => rfl
    next some_ =>
      obtain ⟨changes, counted, steps⟩ := round_leads (.inl trivial) sound fr
      have less := steps.rewritable sound
      simp only [Nat.zero_add] at counted
      refine ih (steps.sound sound) ?_ _ _
      change (round m fr).module.rewritable + changes ≤ m.rewritable at less
      omega

theorem simplifyRounds_settles (sound : m.Sound True True closed) (limit : Nat) {n : Nat} (enough : m.rewritable < n)
    (fr : Frontier) (total : Nat) :
    (m.simplifyRounds limit n fr total).warnings = [] ∧
      Settled (m.simplifyRounds limit n fr total).module (m.simplifyRounds limit n fr total).frontier ∧
      Tidy (m.simplifyRounds limit n fr total).module :=
  have quiet := simplifyRounds_quiet sound limit enough fr total
  ⟨quiet, simplifyRounds_settled sound quiet⟩

theorem simplifyPointers_of_settled {fr : Frontier} (settled : Settled m fr) (tidy : Tidy m) (limit : Nat) :
    (m.simplifyPointers fr limit).toSimplification = ⟨m, fr, 0⟩ := by
  unfold simplifyPointers
  cases limit with
  | zero => rfl
  | succ n =>
    unfold simplifyRounds
    simp [round_of_settled settled tidy]

/-! ### Calls -/

/-- Simplification once more: pointers that join the frontier, and how many rounds there may be. -/
structure Call where
  pointers : List (FuncId × ValueId)
  limit : Nat

/-- Simplifies again and again, and counts the changes of all calls. -/
def simplifyCalls (m : Module) (fr : Frontier) : List Call → Simplification
  | [] => ⟨m, fr, 0⟩
  | call :: calls =>
    let r := m.simplifyPointers (fr.insertAll call.pointers) call.limit
    let s := r.module.simplifyCalls r.frontier calls
    { s with changes := r.changes + s.changes }

theorem simplifyCalls_steps (sound : m.Sound True True closed) (fr : Frontier) (calls : List Call) :
    Steps True True closed (m.simplifyCalls fr calls).changes m (m.simplifyCalls fr calls).module := by
  induction calls generalizing m fr with
  | nil => exact .refl m
  | cons call calls ih =>
    have first := simplifyPointers_leads (.inl trivial) sound (fr.insertAll call.pointers) call.limit
    exact first.trans (ih (first.sound sound) _)

/-- Code as simplification meets it: blocks end in terminators, phis have values, which come from blocks
that are there, and addresses are taken of pointers. -/
structure Ready (m : Module) : Prop where
  valid : ∀ id f, m.func? id = some f → f.Valid
  ends : ∀ id f, m.func? id = some f → f.EndsInTerminators
  grounded : ∀ id f, m.func? id = some f → f.PhisGrounded
  casts : ∀ id f, m.func? id = some f → f.CastsPointers

instance (m : Module) : Decidable m.Ready :=
  decidable_of_iff (∀ f ∈ m.funcs.toList, f.Valid ∧ f.EndsInTerminators ∧ f.PhisGrounded ∧ f.CastsPointers) <|
    m.forall_func_iff.symm.trans
      ⟨fun all => ⟨fun id f found => (all id f found).1, fun id f found => (all id f found).2.1,
          fun id f found => (all id f found).2.2.1, fun id f found => (all id f found).2.2.2⟩,
        fun ready id f found => ⟨ready.valid id f found, ready.ends id f found, ready.grounded id f found,
          ready.casts id f found⟩⟩

theorem Ready.sound (ready : m.Ready) : m.Sound True True False := fun id f found =>
  { valid := ready.valid id f found
    ends := ready.ends id f found
    casts := fun _ => ready.casts id f found
    grounded := fun _ => ready.grounded id f found
    known := fun _ i v ty cast => Graph.lt_of_isPtr (ready.casts id f found i _ cast v ty rfl)
    phisFirst := False.elim
    defined := False.elim
    listed := False.elim
    sums := False.elim }

/-- However often code is simplified, and whatever pointers it is told of, no more is changed than there is
to take out at first. With more rounds than that, simplification ends by itself, without a warning, and from
then on changes nothing. -/
theorem simplifyPointers_reaches_fixpoint (m : Module) (ready : m.Ready) (fr : Frontier) :
    (∀ calls, (m.simplifyCalls fr calls).changes ≤ m.rewritable) ∧
      ∀ limit, m.rewritable < limit → (m.simplifyPointers fr limit).warnings = [] ∧
        ∀ later, ((m.simplifyPointers fr limit).module.simplifyPointers (m.simplifyPointers fr limit).frontier
          later).toSimplification = ⟨(m.simplifyPointers fr limit).module, (m.simplifyPointers fr limit).frontier, 0⟩ := by
  refine ⟨fun calls => ?_, fun limit enough => ?_⟩
  · have less := (simplifyCalls_steps ready.sound fr calls).rewritable ready.sound
    omega
  · obtain ⟨quiet, settled, tidy⟩ := simplifyRounds_settles ready.sound limit enough fr 0
    exact ⟨quiet, simplifyPointers_of_settled settled tidy⟩

theorem fieldLoop_reaches_fixpoint : fieldLoop.rewritable < 3 ∧
    (∀ calls, (fieldLoop.simplifyCalls .empty calls).changes ≤ 2) ∧
      (fieldLoop.simplifyPointers .empty 3).warnings = [] := by
  have ready : fieldLoop.Ready := by decide +kernel
  have count : fieldLoop.rewritable = 2 := by decide +kernel
  obtain ⟨bound, settles⟩ := simplifyPointers_reaches_fixpoint fieldLoop ready .empty
  exact ⟨by omega, fun calls => count ▸ bound calls, (settles 3 (by omega)).1⟩

end Module

end VarRecovery
