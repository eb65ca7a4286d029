import VarRecovery.Proofs.Code.Func
import VarRecovery.Proofs.Code.Module
import VarRecovery.Proofs.Code.Tracking

/-!
Functions in which exactly the listed instructions are tracked, and what keeps them so: instructions that are
written are made and listed together, and those that are taken out are untracked.
-/

set_option autoImplicit false

namespace VarRecovery

namespace Func

/-- The tracked instructions are those that are listed. -/
structure Tracked (f : Func) : Prop where
  blocks_nodup : f.listing.blockIds.Nodup
  code_nodup : f.code.Nodup
  tracks : f.graph.Tracks {i | i ∈ f.code}

variable {f g h : Func} {gone others : List InstId} {i anchor : InstId} {inst : Inst} {place : Place}
  {v new : ValueId}

theorem Tracked.exact (tracked : f.Tracked) : f.graph.Exact {i | i ∈ f.code} :=
  tracked.tracks.exact

theorem Tracked.mem_users_iff (tracked : f.Tracked) : i ∈ f.graph.users v ↔ i ∈ f.code ∧ v ∈ f.graph.operands i :=
  tracked.exact.users v i

theorem Tracked.known (tracked : f.Tracked) (operand : v ∈ f.graph.operands i) : f.graph.Has v :=
  tracked.exact.operands i v operand

/-- What an instruction that makes a value is a cast of is there. -/
theorem Tracked.known_cast (tracked : f.Tracked) {op : CastOp} {arg : ValueId}
    (cast : f.graph.castOf? v = some (op, arg)) : f.graph.Has arg := by
  unfold Graph.castOf? Graph.defining? at cast
  split at cast
  next op' arg' ty found =>
    cases cast
    obtain ⟨i, -, made⟩ := Option.bind_eq_some_iff.mp found
    exact tracked.known (Graph.mem_operands.mpr ⟨_, made, List.mem_singleton_self arg⟩)
  next => cases cast

theorem Tracked.valid (tracked : f.Tracked) : f.Valid where
  graph := tracked.exact.valid
  blocks_nodup := tracked.blocks_nodup
  code_nodup := tracked.code_nodup
  code_lt := tracked.exact.made
  used _ listed _ operand := tracked.mem_users_iff.mpr ⟨listed, operand⟩

/-- What code has become: it is tracked, and nothing is gone of what was there but the instructions told. -/
structure Revision (gone : List InstId) (f g : Func) : Prop where
  tracked : g.Tracked
  known : ∀ v, f.graph.Has v → g.graph.Has v
  definition : ∀ v, f.graph.Has v → g.graph.definition? v = f.graph.definition? v
  blocks : g.listing.blockIds = f.listing.blockIds
  listed : ∀ i ∈ f.code, i ∉ gone → i ∈ g.code

theorem Revision.refl (tracked : f.Tracked) : Revision gone f f :=
  ⟨tracked, fun _ known => known, fun _ _ => rfl, rfl, fun _ listed _ => listed⟩

theorem Revision.trans (first : Revision gone f g) (second : Revision others g h) :
    Revision (gone ++ others) f h where
  tracked := second.tracked
  known v there := second.known v (first.known v there)
  definition v there := (second.definition v (first.known v there)).trans (first.definition v there)
  blocks := second.blocks.trans first.blocks
  listed i listed kept := by
    rw [List.mem_append, not_or] at kept
    exact second.listed i (first.listed i listed kept.1) kept.2

theorem Revision.still (revision : Revision [] f g) (listed : i ∈ f.code) : i ∈ g.code :=
  revision.listed i listed List.not_mem_nil

/-! ### Changes of the graph -/

theorem Tracked.revise (tracked : f.Tracked) {graph : Graph} (tracks : graph.Tracks {i | i ∈ f.code})
    (known : ∀ v, f.graph.Has v → graph.Has v)
    (definition : ∀ v, f.graph.Has v → graph.definition? v = f.graph.definition? v) :
    Revision gone f { f with graph } where
  tracked := ⟨tracked.blocks_nodup, tracked.code_nodup, tracks⟩
  known := known
  definition := definition
  blocks := rfl
  listed _ listed _ := listed

/-- Instructions change, but no values. -/
theorem Tracked.edit (tracked : f.Tracked) {graph : Graph} (tracks : graph.Tracks {i | i ∈ f.code})
    (values : graph.values = f.graph.values) : Revision gone f { f with graph } :=
  tracked.revise tracks (fun v known => by rwa [Graph.Has, values])
    fun v _ => by rw [Graph.definition?, Graph.value?, values, Graph.definition?, Graph.value?]

theorem Tracked.findOrAdd (tracked : f.Tracked) (p : Value → Bool) {val : Value} (plain : ∀ i ty, val ≠ .result i ty)
    (known : ∀ v ∈ val.operands, f.graph.Has v) :
    Revision [] f { f with graph := (f.graph.findOrAdd p val).1 } ∧
      (f.graph.findOrAdd p val).1.Has (f.graph.findOrAdd p val).2 := by
  obtain ⟨tracks, there, old, definition⟩ := tracked.tracks.findOrAdd p plain known
  exact ⟨tracked.revise tracks old definition, there⟩

theorem Tracked.addImm (tracked : f.Tracked) (i : Imm) :
    Revision [] f (f.addImm i).1 ∧ (f.addImm i).1.graph.Has (f.addImm i).2 :=
  tracked.findOrAdd _ nofun nofun

theorem Tracked.addGlobal (tracked : f.Tracked) (id : GlobalId) (ty : Ty) :
    Revision [] f { f with graph := (f.graph.addGlobal id ty).1 } ∧
      (f.graph.addGlobal id ty).1.Has (f.graph.addGlobal id ty).2 :=
  tracked.findOrAdd _ nofun nofun

theorem Tracked.addFunc (tracked : f.Tracked) (id : FuncId) (ty : Ty) :
    Revision [] f { f with graph := (f.graph.addFunc id ty).1 } ∧
      (f.graph.addFunc id ty).1.Has (f.graph.addFunc id ty).2 :=
  tracked.findOrAdd _ nofun nofun

theorem Tracked.setGlobalTy (tracked : f.Tracked) (id : GlobalId) (ty : Ty) :
    Revision [] f (f.updateGraph (·.setGlobalTy id ty)) :=
  tracked.revise (tracked.tracks.step (.retype id ty)) (fun _ known => Nat.lt_of_lt_of_eq known Array.size_map.symm)
    fun v _ => Graph.definition?_setGlobalTy f.graph id ty v

theorem Tracked.setInst (tracked : f.Tracked) (listed : i ∈ f.code) (known : ∀ v ∈ inst.operands, f.graph.Has v) :
    Revision [] f (f.updateGraph (·.setInst i inst)) :=
  tracked.edit (tracked.tracks.step (.set listed known)) (congrArg Graph.values (Graph.setInst_eq f.graph i inst).1 :)

theorem Tracked.replaceOperand (tracked : f.Tracked) (listed : i ∈ f.code) (old : ValueId) (known : f.graph.Has new) :
    Revision [] f (f.updateGraph (·.replaceOperand i old new)) :=
  tracked.edit (tracked.tracks.step (.operand listed old known))
    (congrArg Graph.values (Graph.replaceOperand_eq f.graph i old new).1 :)

theorem Tracked.replaceUses (tracked : f.Tracked) (old : ValueId) (known : f.graph.Has new) :
    Revision [] f (f.updateGraph (·.replaceUses old new)) :=
  tracked.edit (tracked.tracks.step (.uses old known))
    (congrArg Graph.values (Graph.replaceUses_eq f.graph old new).1 :)

/-! ### Changes of the listing -/

theorem Tracked.addBlock (tracked : f.Tracked) (new : ⟨f.listing.blocks.length⟩ ∉ f.listing.blockIds) :
    f.addBlock.Tracked where
  blocks_nodup := by
    simp only [Func.addBlock, Listing.appendBlock, Listing.blockIds, List.map_append, List.map_cons, List.map_nil]
    refine List.nodup_append.mpr ⟨tracked.blocks_nodup, by simp, fun b member c last same => new ?_⟩
    rwa [← List.mem_singleton.mp last, ← same]
  code_nodup := by simpa [code, Func.addBlock, Listing.appendBlock, Listing.allInsts] using tracked.code_nodup
  tracks := by simpa [code, Func.addBlock, Listing.appendBlock, Listing.allInsts] using tracked.tracks

theorem Tracked.mem_code_insertInst (tracked : f.Tracked) (offered : f.listing.Offers place) (inst : Inst)
    (j : InstId) : j ∈ (f.insertInst inst place).1.code ↔ j = f.graph.nextInst ∨ j ∈ f.code :=
  (Listing.perm_insert tracked.blocks_nodup tracked.code_nodup offered).mem_iff.trans List.mem_cons

theorem Tracked.insertInst (tracked : f.Tracked) (inst : Inst) (place : Place)
    (known : ∀ v ∈ inst.operands, f.graph.Has v) (offered : f.listing.Offers place) :
    Revision [] f (f.insertInst inst place).1 ∧ f.graph.nextInst ∈ (f.insertInst inst place).1.code := by
  have perm := Listing.perm_insert (i := f.graph.nextInst) tracked.blocks_nodup tracked.code_nodup offered
  have listed := tracked.mem_code_insertInst offered inst
  have values : (f.insertInst inst place).1.graph.values = f.graph.values :=
    (congrArg Graph.values (Graph.addInst_eq f.graph inst).1 :)
  refine ⟨⟨⟨?_, ?_, ?_⟩, fun v there => ?_, fun v _ => ?_, Listing.blockIds_insert _ _ _,
    fun j before _ => (listed j).mpr (.inr before)⟩, (listed _).mpr (.inl rfl)⟩
  · exact (Listing.blockIds_insert f.listing _ place) ▸ tracked.blocks_nodup
  · exact perm.nodup_iff.mpr (List.nodup_cons.mpr ⟨tracked.valid.nextInst_not_listed, tracked.code_nodup⟩)
  · have same : {j | j ∈ (f.insertInst inst place).1.code} =
        Insert.insert f.graph.nextInst {j | j ∈ f.code} :=
      Set.ext listed
    rw [same]
    exact tracked.tracks.step (.make known)
  · rwa [Graph.Has, values]
  · rw [Graph.definition?, Graph.value?, values, Graph.definition?, Graph.value?]

theorem Tracked.insert (tracked : f.Tracked) (inst : Inst) (ty : Ty) (place : Place)
    (known : ∀ v ∈ inst.operands, f.graph.Has v) (offered : f.listing.Offers place) :
    Revision [] f (f.insert inst ty place).1 ∧ (f.insert inst ty place).1.graph.Has (f.insert inst ty place).2 := by
  obtain ⟨written, listed⟩ := tracked.insertInst inst place known offered
  have made := written.tracked.valid.code_lt _ listed
  have free : (f.insertInst inst place).1.graph.result? f.graph.nextInst = none := by
    refine (Graph.result?_addInst f.graph inst _).trans ?_
    rw [Graph.result?, Array.getD_eq_getD_getElem?, Array.getElem?_eq_none]
    · rfl
    · exact Nat.le_of_eq tracked.valid.graph.size_results
  have size : (f.insert inst ty place).1.graph.values.size = (f.insertInst inst place).1.graph.values.size + 1 :=
    Array.size_push _
  refine ⟨written.trans (written.tracked.revise (written.tracked.tracks.step (.result made free ty)) (fun v there => ?_)
    fun v there => ?_), ?_⟩
  · exact Nat.lt_trans there (Nat.lt_of_lt_of_eq (Nat.lt_succ_self _) size.symm)
  · exact Graph.definition?_addResult there _ ty
  · exact Nat.lt_of_lt_of_eq (Nat.lt_succ_self _) size.symm

theorem Tracked.insertBefore (tracked : f.Tracked) (listed : anchor ∈ f.code) (inst : Inst) (ty : Ty)
    (known : ∀ v ∈ inst.operands, f.graph.Has v) : Revision [] f (f.insert inst ty (.before anchor)).1 ∧
      (f.insert inst ty (.before anchor)).1.graph.Has (f.insert inst ty (.before anchor)).2 :=
  have offered : f.listing.Offers (.before anchor) := listed
  tracked.insert inst ty (.before anchor) known offered

theorem Tracked.castBefore (tracked : f.Tracked) (listed : anchor ∈ f.code) (op : CastOp) (known : f.graph.Has v)
    (ty : Ty) : Revision [] f (f.insert (.cast op v ty) ty (.before anchor)).1 ∧
      (f.insert (.cast op v ty) ty (.before anchor)).1.graph.Has (f.insert (.cast op v ty) ty (.before anchor)).2 :=
  tracked.insertBefore listed _ ty (List.forall_mem_singleton.mpr known)

theorem Tracked.remove (tracked : f.Tracked) (i : InstId) : Revision [i] f (f.remove i) where
  tracked := by
    have valid := tracked.valid.remove i
    refine ⟨valid.blocks_nodup, valid.code_nodup, ?_⟩
    have same : {j | j ∈ (f.remove i).code} = {j | j ∈ f.code} \ {i} := Set.ext fun j => mem_code_remove
    rw [same]
    exact tracked.tracks.step (.untrack i)
  known v there := by
    change v.index < (f.graph.untrack i).values.size
    rwa [congrArg Graph.values (Graph.untrack_eq f.graph i).1]
  definition v _ := by
    change (f.graph.untrack i).definition? v = _
    rw [Graph.definition?, Graph.value?_untrack, Graph.definition?]
  blocks := Listing.blockIds_updateAll f.listing _
  listed j listed kept := mem_code_remove.mpr ⟨listed, fun same => kept (List.mem_singleton.mpr same)⟩

theorem tracks_addArgs {graph : Graph} {tracked : Set InstId} (tracks : graph.Tracks tracked) (position : Nat)
    (tys : List Ty) : (addArgs graph position tys).1.Tracks tracked := by
  induction tys generalizing graph position with
  | nil => exact tracks
  | cons ty tys ih =>
    have step : Graph.Step (graph, tracked) ((graph.addValue (.arg position ty)).1, tracked) := .value nofun nofun
    exact ih (tracks.step step) (position + 1)

theorem tracked_declare (s : Signature) (names : List (Nat × String)) : (Func.declare s names).Tracked where
  blocks_nodup := .nil
  code_nodup := .nil
  tracks := by
    have empty : {i | i ∈ (Func.declare s names).code} = ∅ :=
      Set.eq_empty_of_forall_notMem fun i listed => nomatch listed
    rw [empty]
    exact tracks_addArgs Graph.tracks_empty 0 s.args

end Func

namespace Module

variable {m n k : Module} {id : FuncId} {f g : Func}

def Tracked (m : Module) : Prop :=
  ∀ id f, m.func? id = some f → f.Tracked

def Lists (m : Module) (id : FuncId) (i : InstId) : Prop :=
  ∃ f, m.func? id = some f ∧ i ∈ f.code

def Holds (m : Module) (id : FuncId) (v : ValueId) : Prop :=
  ∃ f, m.func? id = some f ∧ f.graph.Has v

theorem Tracked.updateFunc (tracked : m.Tracked) {change : Func → Func}
    (keeps : ∀ f, m.func? id = some f → (change f).Tracked) : (m.updateFunc id change).Tracked := by
  intro j f found
  rw [func?_updateFunc] at found
  split at found
  next here =>
    obtain ⟨old, known, rfl⟩ := Option.map_eq_some_iff.mp found
    exact keeps old (here ▸ known)
  next => exact tracked j f found

/-- The same functions, in which code was written or uses other values. -/
structure Revision (m n : Module) : Prop where
  func : ∀ id f, m.func? id = some f → ∃ g, n.func? id = some g ∧ Func.Revision [] f g
  known : ∀ id, (n.func? id).isSome → (m.func? id).isSome

theorem Revision.refl (tracked : m.Tracked) : m.Revision m :=
  ⟨fun id f found => ⟨f, found, .refl (tracked id f found)⟩, fun _ known => known⟩

theorem Revision.trans (first : m.Revision n) (second : n.Revision k) : m.Revision k where
  func id f found := by
    obtain ⟨g, middle, one⟩ := first.func id f found
    obtain ⟨h, last, two⟩ := second.func id g middle
    exact ⟨h, last, one.trans two⟩
  known id there := first.known id (second.known id there)

theorem Revision.tracked (revision : m.Revision n) : n.Tracked := by
  intro id g found
  obtain ⟨f, before⟩ := Option.isSome_iff_exists.mp (revision.known id (by rw [found]; rfl))
  obtain ⟨_, after, one⟩ := revision.func id f before
  cases found.symm.trans after
  exact one.tracked

theorem Revision.lists (revision : m.Revision n) {i : InstId} (listed : m.Lists id i) : n.Lists id i := by
  obtain ⟨f, found, inside⟩ := listed
  obtain ⟨g, after, one⟩ := revision.func id f found
  exact ⟨g, after, one.still inside⟩

theorem Revision.holds (revision : m.Revision n) {v : ValueId} (there : m.Holds id v) : n.Holds id v := by
  obtain ⟨f, found, inside⟩ := there
  obtain ⟨g, after, one⟩ := revision.func id f found
  exact ⟨g, after, one.known v inside⟩

theorem Revision.map (tracked : m.Tracked) {change : Func → Func}
    (func : ∀ id, n.func? id = (m.func? id).map change)
    (revises : ∀ f, f.Tracked → Func.Revision [] f (change f)) : m.Revision n where
  func id f found := ⟨change f, by rw [func, found]; rfl, revises f (tracked id f found)⟩
  known id there := by simpa [func] using there

theorem Revision.of_funcs_eq (tracked : m.Tracked) (same : n.funcs = m.funcs) : m.Revision n where
  func id f found := ⟨f, by rwa [func?, same], .refl (tracked id f found)⟩
  known id there := by rwa [func?, same] at there

theorem Revision.updateFunc (tracked : m.Tracked) (found : m.func? id = some f) (revision : Func.Revision [] f g) :
    m.Revision (m.updateFunc id fun _ => g) where
  func j h known := by
    rw [func?_updateFunc]
    split
    next here =>
      cases found.symm.trans (here ▸ known)
      exact ⟨g, by simp [known], revision⟩
    next => exact ⟨h, known, .refl (tracked j h known)⟩
  known j there := by
    rw [func?_updateFunc] at there
    split at there
    next => simpa using there
    next => exact there

end Module

end VarRecovery
