import VarRecovery.Proofs.Code.Valid

/-!
Graphs that came from others by additions, and by uses of values that became uses of others of the same
type.
-/

set_option autoImplicit false

namespace VarRecovery.Graph

/-- Values and results are as before, and instructions are, but for values of the same types in the place
of operands. -/
structure Extends (g h : Graph) : Prop where
  value : ∀ v val, g.value? v = some val → h.value? v = some val
  inst : ∀ i inst, g.inst? i = some inst → ∃ σ : ValueId → ValueId,
    h.inst? i = some (inst.mapOperands σ) ∧
      ∀ v, v.index < g.values.size → (σ v).index < h.values.size ∧ h.ty (σ v) = g.ty v
  result : ∀ i, i.index < g.insts.size → h.result? i = g.result? i

variable {g h k : Graph}

theorem Extends.ty (grown : g.Extends h) {v : ValueId} (inside : v.index < g.values.size) :
    h.ty v = g.ty v := by
  obtain ⟨val, found⟩ := exists_value inside
  simp [Graph.ty, found, grown.value v val found]

theorem Extends.value_lt (grown : g.Extends h) {v : ValueId} (inside : v.index < g.values.size) :
    v.index < h.values.size := by
  obtain ⟨val, found⟩ := exists_value inside
  exact value?_lt (grown.value v val found)

theorem Extends.inst_lt (grown : g.Extends h) {i : InstId} (inside : i.index < g.insts.size) :
    i.index < h.insts.size := by
  obtain ⟨inst, found⟩ := exists_inst inside
  obtain ⟨σ, found, -⟩ := grown.inst i inst found
  exact inst?_lt found

theorem Extends.definition? (grown : g.Extends h) {v : ValueId} (inside : v.index < g.values.size) :
    h.definition? v = g.definition? v := by
  obtain ⟨val, found⟩ := exists_value inside
  simp [Graph.definition?, found, grown.value v val found]

theorem Extends.map_inst {α : Type} (grown : g.Extends h) {p : Inst → α}
    (kept : ∀ (σ : ValueId → ValueId) inst, p (inst.mapOperands σ) = p inst) {i : InstId}
    (inside : i.index < g.insts.size) : (h.inst? i).map p = (g.inst? i).map p := by
  obtain ⟨inst, found⟩ := exists_inst inside
  obtain ⟨σ, after, -⟩ := grown.inst i inst found
  simp [found, after, kept]

theorem Extends.isPhi (grown : g.Extends h) {i : InstId} (inside : i.index < g.insts.size) :
    h.isPhi i = g.isPhi i := by
  rw [Graph.isPhi, grown.map_inst (fun _ _ => Inst.isPhi_mapOperands) inside, Graph.isPhi]

theorem Extends.of_insts_eq (insts : h.insts = g.insts) (results : h.results = g.results)
    (value : ∀ v val, g.value? v = some val → h.value? v = some val) : g.Extends h where
  value := value
  inst i inst found := by
    refine ⟨id, ?_, fun v inside => ?_⟩
    · rw [Inst.mapOperands_id, inst?, insts]
      exact found
    · obtain ⟨val, known⟩ := exists_value inside
      have after := value v val known
      exact ⟨value?_lt after, by simp [Graph.ty, known, after]⟩
  result i _ := by
    rw [result?, results, result?]

theorem Extends.refl (g : Graph) : g.Extends g :=
  .of_insts_eq rfl rfl fun _ _ found => found

theorem Extends.trans (first : g.Extends h) (second : h.Extends k) : g.Extends k where
  value v val found := second.value v val (first.value v val found)
  inst i inst found := by
    obtain ⟨σ, middle, types⟩ := first.inst i inst found
    obtain ⟨τ, after, others⟩ := second.inst i _ middle
    refine ⟨τ ∘ σ, by rw [after, Inst.mapOperands_mapOperands], fun v inside => ?_⟩
    obtain ⟨lt, same⟩ := types v inside
    obtain ⟨last, again⟩ := others (σ v) lt
    exact ⟨last, again.trans same⟩
  result i inside := (second.result i (first.inst_lt inside)).trans (first.result i inside)

theorem Extends.addImm (g : Graph) (i : Imm) : g.Extends (g.addImm i).1 := by
  rcases addImm_cases g i with ⟨v, -, same⟩ | new
  · rw [same]
    exact .refl g
  · rw [new]
    refine .of_insts_eq rfl rfl fun v val found => ?_
    rw [value?_addValue_of_lt (value?_lt found), found]

theorem value?_emit_of_some {v : ValueId} {val : Value} (found : g.value? v = some val) (inst : Inst)
    (ty : Ty) : (g.emit inst ty).value? v = some val := by
  have old : v ≠ g.nextValue := fun same => Nat.lt_irrefl _ (same ▸ value?_lt found)
  rw [value?_emit, if_neg old, found]

theorem inst?_emit_of_some {i : InstId} {other : Inst} (found : g.inst? i = some other) (inst : Inst)
    (ty : Ty) : (g.emit inst ty).inst? i = some other := by
  have old : i ≠ g.nextInst := fun same => Nat.lt_irrefl _ (same ▸ inst?_lt found)
  rw [inst?_emit, if_neg old, found]

theorem Extends.emit (valid : g.Valid) (inst : Inst) (ty : Ty) : g.Extends (g.emit inst ty) where
  value v val found := value?_emit_of_some found inst ty
  inst i other found := by
    refine ⟨id, by rw [Inst.mapOperands_id, inst?_emit_of_some found], fun v inside => ?_⟩
    obtain ⟨val, known⟩ := exists_value inside
    have after := value?_emit_of_some known inst ty
    exact ⟨value?_lt after, by simp [Graph.ty, known, after]⟩
  result i inside := by
    have old : i ≠ g.nextInst := fun same => Nat.lt_irrefl _ (same ▸ inside)
    rw [result?_emit valid.size_results, if_neg old]

theorem ty_replaceUses (g : Graph) (old new v : ValueId) : (g.replaceUses old new).ty v = g.ty v := by
  rw [Graph.ty, value?_replaceUses, Graph.ty]

theorem Extends.replaceUses (old : ValueId) {new : ValueId} (inside : new.index < g.values.size)
    (same : g.ty new = g.ty old) : g.Extends (g.replaceUses old new) where
  value v val found := by
    rw [value?_replaceUses, found]
  inst i inst found := by
    have size : (g.replaceUses old new).values.size = g.values.size := by
      rw [congrArg Graph.values (replaceUses_eq g old new).1]
    rw [inst?_replaceUses, found]
    split
    next =>
      refine ⟨fun v => if v = old then new else v, rfl, fun v known => ?_⟩
      rw [ty_replaceUses, size]
      by_cases here : v = old
      · simpa [here] using And.intro inside same
      · simpa [here] using known
    next =>
      refine ⟨id, by rw [Inst.mapOperands_id], fun v known => ?_⟩
      rw [ty_replaceUses, size]
      exact ⟨known, rfl⟩
  result i _ := result?_replaceUses g old new i

theorem Extends.untrack (g : Graph) (i : InstId) : g.Extends (g.untrack i) := by
  refine .of_insts_eq (congrArg Graph.insts (untrack_eq g i).1 :)
    (congrArg Graph.results (untrack_eq g i).1 :) fun v val found => ?_
  rw [value?_untrack, found]

end VarRecovery.Graph
