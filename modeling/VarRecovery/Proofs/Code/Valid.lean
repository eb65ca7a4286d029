import VarRecovery.Proofs.Code.Graph

/-!
Graphs in which the users of values and the results of instructions are what the instructions and the
values say.
-/

set_option autoImplicit false

namespace VarRecovery.Graph

/-- Each value has a list of users, each instruction a place for its result; users are listed once and in
order, and they do use the value. An instruction need not be listed as a user: it may be untracked. -/
structure Valid (g : Graph) : Prop where
  size_userLists : g.userLists.size = g.values.size
  size_results : g.results.size = g.insts.size
  ascending : ∀ v, (g.users v).Pairwise (·.index < ·.index)
  result_iff : ∀ i v, g.result? i = some v ↔ g.definition? v = some i
  uses : ∀ v, ∀ i ∈ g.users v, v ∈ g.operands i

variable {g : Graph}

theorem inst?_lt {i : InstId} {inst : Inst} (found : g.inst? i = some inst) : i.index < g.insts.size :=
  (Array.getElem?_eq_some_iff.mp found).1

theorem value?_lt {v : ValueId} {val : Value} (found : g.value? v = some val) : v.index < g.values.size :=
  (Array.getElem?_eq_some_iff.mp found).1

theorem exists_value {v : ValueId} (inside : v.index < g.values.size) : ∃ val, g.value? v = some val :=
  ⟨_, Array.getElem?_eq_getElem inside⟩

theorem exists_inst {i : InstId} (inside : i.index < g.insts.size) : ∃ inst, g.inst? i = some inst :=
  ⟨_, Array.getElem?_eq_getElem inside⟩

theorem mem_operands {i : InstId} {v : ValueId} :
    v ∈ g.operands i ↔ ∃ inst, g.inst? i = some inst ∧ v ∈ inst.operands := by
  cases found : g.inst? i <;> simp [operands, found]

theorem definition?_eq_some {v : ValueId} {i : InstId} :
    g.definition? v = some i ↔ ∃ ty, g.value? v = some (.result i ty) := by
  unfold definition?
  split <;> simp_all

theorem castOf?_eq_some {v : ValueId} {op : CastOp} {arg : ValueId} :
    g.castOf? v = some (op, arg) ↔ ∃ i ty, g.definition? v = some i ∧ g.inst? i = some (.cast op arg ty) := by
  unfold castOf? defining?
  cases definition : g.definition? v with
  | none => simp
  | some i =>
    cases found : g.inst? i with
    | none => simp [found]
    | some inst => cases inst <;> simp [found]

theorem Valid.value_lt (valid : g.Valid) {v : ValueId} {i : InstId} (user : i ∈ g.users v) :
    v.index < g.values.size :=
  valid.size_userLists ▸ lt_of_mem_users user

theorem Valid.result_lt (valid : g.Valid) {i : InstId} {v : ValueId} (result : g.result? i = some v) :
    i.index < g.insts.size ∧ v.index < g.values.size := by
  refine ⟨?_, ?_⟩
  · rw [← valid.size_results]
    refine Nat.lt_of_not_le fun outside => ?_
    simp [result?, Array.getElem?_eq_none outside] at result
  · obtain ⟨ty, found⟩ := definition?_eq_some.mp ((valid.result_iff i v).mp result)
    exact value?_lt found

theorem Valid.users_nodup (valid : g.Valid) (v : ValueId) : (g.users v).Nodup :=
  (valid.ascending v).imp fun below same => by simp [same] at below

/-- Only the values and instructions that are there need to be looked at. -/
theorem valid_iff (g : Graph) : g.Valid ↔
    g.userLists.size = g.values.size ∧ g.results.size = g.insts.size ∧
      (∀ n < g.userLists.size, (g.users ⟨n⟩).Pairwise (·.index < ·.index)) ∧
      (∀ n < g.results.size, ∀ v ∈ g.result? ⟨n⟩, g.definition? v = some ⟨n⟩) ∧
      (∀ n < g.values.size, ∀ i ∈ g.definition? ⟨n⟩, g.result? i = some ⟨n⟩) ∧
      ∀ n < g.userLists.size, ∀ i ∈ g.users ⟨n⟩, ⟨n⟩ ∈ g.operands i := by
  constructor
  · intro valid
    exact ⟨valid.size_userLists, valid.size_results, fun n _ => valid.ascending ⟨n⟩,
      fun n _ v result => (valid.result_iff ⟨n⟩ v).mp result,
      fun n _ i definition => (valid.result_iff i ⟨n⟩).mpr definition, fun n _ => valid.uses ⟨n⟩⟩
  · rintro ⟨userLists, results, ascending, defined, produced, uses⟩
    refine ⟨userLists, results, fun v => ?_, fun i v => ⟨fun result => ?_, fun definition => ?_⟩,
      fun v i user => uses v.index (lt_of_mem_users user) i user⟩
    · by_cases inside : v.index < g.userLists.size
      · exact ascending v.index inside
      · have outside := Array.getElem?_eq_none (Nat.le_of_not_lt inside)
        simp [users, outside]
    · refine defined i.index (Nat.lt_of_not_le fun outside => ?_) v result
      simp [result?, Array.getElem?_eq_none outside] at result
    · obtain ⟨ty, found⟩ := definition?_eq_some.mp definition
      exact produced v.index (value?_lt found) i definition

instance (g : Graph) : Decidable g.Valid :=
  decidable_of_iff _ g.valid_iff.symm

/-! ### New values and instructions -/

theorem Valid.addValue (valid : g.Valid) {val : Value} (plain : ∀ i ty, val ≠ .result i ty) :
    (g.addValue val).1.Valid where
  size_userLists := by
    simp [Graph.addValue, valid.size_userLists]
  size_results := valid.size_results
  ascending v := by
    rw [users_addValue]
    exact valid.ascending v
  result_iff i v := by
    rw [show (g.addValue val).1.result? i = g.result? i from rfl, valid.result_iff,
      definition?_eq_some, definition?_eq_some, value?_addValue]
    split
    next fresh =>
      have absent : g.value? v = none := Array.getElem?_eq_none (Nat.le_of_eq fresh.symm)
      simp [absent, plain]
    next => rfl
  uses v i user := by
    rw [users_addValue] at user
    exact valid.uses v i user

theorem Valid.addImm (valid : g.Valid) (i : Imm) : (g.addImm i).1.Valid := by
  rcases addImm_cases g i with ⟨v, -, same⟩ | new
  · rwa [same]
  · rw [new]
    exact valid.addValue (by simp)

theorem Valid.addInst (valid : g.Valid) (inst : Inst) : (g.addInst inst).1.Valid where
  size_userLists := by
    rw [(addInst_eq g inst).2, congrArg Graph.values (addInst_eq g inst).1, valid.size_userLists]
  size_results := by
    rw [congrArg Graph.results (addInst_eq g inst).1, congrArg Graph.insts (addInst_eq g inst).1, Array.size_push,
      Array.size_push, valid.size_results]
  ascending := ascending_addInst inst valid.ascending
  result_iff i v := by
    rw [result?_addInst, valid.result_iff, definition?_eq_some, definition?_eq_some, value?_addInst]
  uses v i user := by
    rcases (mem_users_addInst g inst i v).mp user with before | ⟨rfl, operand, -⟩
    · obtain ⟨other, found, operand⟩ := mem_operands.mp (valid.uses v i before)
      have old : i ≠ g.nextInst := fun same => Nat.lt_irrefl _ (same ▸ inst?_lt found)
      exact mem_operands.mpr ⟨other, by rw [inst?_addInst, if_neg old, found], operand⟩
    · exact mem_operands.mpr ⟨inst, by rw [inst?_addInst, if_pos rfl], operand⟩

theorem Valid.addResult (valid : g.Valid) {i : InstId} (made : i.index < g.insts.size) (free : g.result? i = none)
    (ty : Ty) : (g.addResult i ty).1.Valid where
  size_userLists := by
    change (g.userLists.push []).size = (g.values.push _).size
    rw [Array.size_push, Array.size_push, valid.size_userLists]
  size_results := by
    change (g.results.setIfInBounds i.index _).size = g.insts.size
    rw [Array.size_setIfInBounds, valid.size_results]
  ascending v := by
    rw [users_addResult]
    exact valid.ascending v
  result_iff j v := by
    rw [result?_addResult (valid.size_results ▸ made), definition?_eq_some, value?_addResult]
    -- The instruction had no result, and no instruction had the new value.
    have noValue : g.result? j ≠ some g.nextValue := fun result => Nat.lt_irrefl _ (valid.result_lt result).2
    have known := (valid.result_iff j v).trans definition?_eq_some
    by_cases here : j = i <;> by_cases new : v = g.nextValue
    · simp [here, new]
    · subst here
      simpa [new, Ne.symm new, free] using known
    · subst new
      simp [here, Ne.symm here, noValue]
    · simpa [here, new] using known
  uses v j user := by
    rw [users_addResult] at user
    exact valid.uses v j user

theorem Valid.emit (valid : g.Valid) (inst : Inst) (ty : Ty) : (g.emit inst ty).Valid := by
  refine (valid.addInst inst).addResult ?_ ?_ ty
  · rw [congrArg Graph.insts (addInst_eq g inst).1, Array.size_push]
    exact Nat.lt_succ_self _
  · rw [result?_addInst, result?, Array.getD_eq_getD_getElem?, Array.getElem?_eq_none]
    · rfl
    · exact Nat.le_of_eq valid.size_results

/-! ### Operands in the place of others -/

theorem value?_replaceUses (g : Graph) (old new v : ValueId) :
    (g.replaceUses old new).value? v = g.value? v := by
  rw [value?, congrArg Graph.values (replaceUses_eq g old new).1, value?]

theorem result?_replaceUses (g : Graph) (old new : ValueId) (i : InstId) :
    (g.replaceUses old new).result? i = g.result? i := by
  rw [result?, congrArg Graph.results (replaceUses_eq g old new).1, result?]

theorem mem_operands_replaceUses (valid : g.Valid) {old new v : ValueId} {i : InstId} :
    v ∈ (g.replaceUses old new).operands i ↔
      (v ∈ g.operands i ∧ (i ∈ g.users old → v ≠ old)) ∨ (v = new ∧ i ∈ g.users old) := by
  rw [mem_operands, inst?_replaceUses]
  split
  next user =>
    obtain ⟨inst, found, uses⟩ := mem_operands.mp (valid.uses old i user)
    simp [operands, found, user, Inst.mem_operands_replace, uses]
  next other => simp [mem_operands, other]

theorem Valid.replaceUses (valid : g.Valid) (old : ValueId) {new : ValueId}
    (inside : new.index < g.values.size) : (g.replaceUses old new).Valid where
  size_userLists := by
    obtain ⟨same, size, -⟩ := replaceUses_eq g old new
    rw [size, congrArg Graph.values same, valid.size_userLists]
  size_results := by
    obtain ⟨same, -, size⟩ := replaceUses_eq g old new
    rw [size, congrArg Graph.results same, valid.size_results]
  ascending := ascending_replaceUses old new valid.ascending
  result_iff i v := by
    rw [result?_replaceUses, definition?_eq_some, value?_replaceUses, valid.result_iff,
      definition?_eq_some]
  uses v i user := by
    rw [mem_users_replaceUses g (valid.size_userLists ▸ inside)] at user
    refine (mem_operands_replaceUses valid).mpr (user.imp_left fun ⟨before, differ⟩ => ?_)
    exact ⟨valid.uses v i before, fun _ => differ⟩

theorem value?_untrack (g : Graph) (i : InstId) (v : ValueId) : (g.untrack i).value? v = g.value? v := by
  rw [value?, congrArg Graph.values (untrack_eq g i).1, value?]

theorem inst?_untrack (g : Graph) (i j : InstId) : (g.untrack i).inst? j = g.inst? j := by
  rw [inst?, congrArg Graph.insts (untrack_eq g i).1, inst?]

theorem result?_untrack (g : Graph) (i j : InstId) : (g.untrack i).result? j = g.result? j := by
  rw [result?, congrArg Graph.results (untrack_eq g i).1, result?]

@[simp] theorem operands_untrack (g : Graph) (i j : InstId) : (g.untrack i).operands j = g.operands j := by
  rw [operands, inst?_untrack, operands]

theorem Valid.untrack (valid : g.Valid) (i : InstId) : (g.untrack i).Valid where
  size_userLists := by
    rw [(untrack_eq g i).2, congrArg Graph.values (untrack_eq g i).1, valid.size_userLists]
  size_results := by
    rw [congrArg Graph.results (untrack_eq g i).1, congrArg Graph.insts (untrack_eq g i).1,
      valid.size_results]
  ascending := ascending_untrack i valid.ascending
  result_iff j v := by
    rw [result?_untrack, definition?_eq_some, value?_untrack, valid.result_iff, definition?_eq_some]
  uses v j user := by
    have before := ((mem_users_untrack g i j v).mp user).1
    simpa using valid.uses v j before

theorem Valid.mem_users_untrack (valid : g.Valid) {i j : InstId} {v : ValueId} :
    j ∈ (g.untrack i).users v ↔ j ∈ g.users v ∧ j ≠ i := by
  rw [Graph.mem_users_untrack]
  refine and_congr_right fun user => not_congr ⟨And.left, ?_⟩
  rintro rfl
  exact ⟨rfl, valid.uses v j user⟩

end VarRecovery.Graph
