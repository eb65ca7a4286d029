import Mathlib.Data.Set.Insert
import Mathlib.Logic.Relation
import VarRecovery.Proofs.Code.Valid

/-!
Tracked instructions. An instruction is tracked from when it is made until it is untracked. Whatever was done to
a graph in between, the users of a value are the tracked instructions that have it among their operands.
-/

set_option autoImplicit false

namespace VarRecovery

namespace Value

def operands : Value → List ValueId
  | .expr e _ => e.operands
  | _ => []

end Value

namespace Graph

/-- Whether a value is one of the graph. -/
abbrev Has (g : Graph) (v : ValueId) : Prop :=
  v.index < g.values.size

/-- One operation, with the instructions that are tracked before and after it. What is used must be there, and
only tracked instructions are edited. -/
inductive Step : Graph × Set InstId → Graph × Set InstId → Prop
  | value {g : Graph} {tracked : Set InstId} {val : Value} (plain : ∀ i ty, val ≠ .result i ty)
      (known : ∀ v ∈ val.operands, g.Has v) : Step (g, tracked) ((g.addValue val).1, tracked)
  | result {g : Graph} {tracked : Set InstId} {i : InstId} (made : i.index < g.insts.size)
      (free : g.result? i = none) (ty : Ty) : Step (g, tracked) ((g.addResult i ty).1, tracked)
  | retype {g : Graph} {tracked : Set InstId} (id : GlobalId) (ty : Ty) :
      Step (g, tracked) (g.setGlobalTy id ty, tracked)
  | make {g : Graph} {tracked : Set InstId} {inst : Inst} (known : ∀ v ∈ inst.operands, g.Has v) :
      Step (g, tracked) ((g.addInst inst).1, insert g.nextInst tracked)
  | set {g : Graph} {tracked : Set InstId} {i : InstId} {inst : Inst} (member : i ∈ tracked)
      (known : ∀ v ∈ inst.operands, g.Has v) : Step (g, tracked) (g.setInst i inst, tracked)
  | incoming {g : Graph} {tracked : Set InstId} {i : InstId} {v : ValueId} (member : i ∈ tracked)
      (isPhi : g.isPhi i) (known : g.Has v) (block : BlockId) :
      Step (g, tracked) (g.addIncoming i v block, tracked)
  | operand {g : Graph} {tracked : Set InstId} {i : InstId} {new : ValueId} (member : i ∈ tracked)
      (old : ValueId) (known : g.Has new) : Step (g, tracked) (g.replaceOperand i old new, tracked)
  | uses {g : Graph} {tracked : Set InstId} {new : ValueId} (old : ValueId) (known : g.Has new) :
      Step (g, tracked) (g.replaceUses old new, tracked)
  | untrack {g : Graph} {tracked : Set InstId} (i : InstId) : Step (g, tracked) (g.untrack i, tracked \ {i})

/-- Operations one after the other make a graph, and leave these instructions tracked. -/
def Tracks (g : Graph) (tracked : Set InstId) : Prop :=
  Relation.ReflTransGen Step (empty, ∅) (g, tracked)

/-- The users of values are exact, and all that is used is there. -/
structure Exact (g : Graph) (tracked : Set InstId) : Prop where
  valid : g.Valid
  made : ∀ i ∈ tracked, i.index < g.insts.size
  users : ∀ v i, i ∈ g.users v ↔ i ∈ tracked ∧ v ∈ g.operands i
  operands : ∀ i, ∀ v ∈ g.operands i, g.Has v
  exprs : ∀ v val, g.value? v = some val → ∀ w ∈ val.operands, g.Has w

variable {g h : Graph} {tracked : Set InstId} {i j : InstId} {inst : Inst} {v w old new : ValueId}

/-! ### New values -/

/-- A new value is used by nothing yet. -/
theorem Exact.push (exact : g.Exact tracked) {val : Value} (valid : h.Valid) (values : h.values = g.values.push val)
    (insts : h.insts = g.insts) (users : ∀ v, h.users v = g.users v) (known : ∀ v ∈ val.operands, g.Has v) :
    h.Exact tracked := by
  have grown {v : ValueId} (inside : g.Has v) : h.Has v := by
    rw [Has, values, Array.size_push]
    exact Nat.lt_succ_of_lt inside
  have operands (i : InstId) : h.operands i = g.operands i := by
    rw [Graph.operands, inst?, insts, Graph.operands, inst?]
  refine ⟨valid, fun i member => insts ▸ exact.made i member, fun v i => ?users, fun i v operand => grown ?operands,
    fun v other found w operand => grown ?exprs⟩
  case users =>
    rw [users, operands]
    exact exact.users v i
  case operands =>
    rw [operands] at operand
    exact exact.operands i v operand
  case exprs =>
    have before : (g.addValue val).1.value? v = some other := by rw [← found, value?, value?, values]; rfl
    rw [value?_addValue] at before
    split at before
    next => cases before; exact known w operand
    next => exact exact.exprs v other before w operand

theorem Exact.value (exact : g.Exact tracked) {val : Value} (plain : ∀ i ty, val ≠ .result i ty)
    (known : ∀ v ∈ val.operands, g.Has v) : (g.addValue val).1.Exact tracked :=
  exact.push (exact.valid.addValue plain) rfl rfl (users_addValue g val) known

theorem definition?_addResult (there : g.Has v) (i : InstId) (ty : Ty) :
    (g.addResult i ty).1.definition? v = g.definition? v := by
  have old : v ≠ g.nextValue := fun same => Nat.lt_irrefl _ (same ▸ there)
  rw [definition?, value?_addResult, if_neg old, definition?]

theorem Exact.result (exact : g.Exact tracked) (made : i.index < g.insts.size) (free : g.result? i = none) (ty : Ty) :
    (g.addResult i ty).1.Exact tracked :=
  exact.push (exact.valid.addResult made free ty) rfl rfl (users_addResult g i ty) nofun

theorem definition?_setGlobalTy (g : Graph) (id : GlobalId) (ty : Ty) (v : ValueId) :
    (g.setGlobalTy id ty).definition? v = g.definition? v := by
  rw [definition?, value?_setGlobalTy, definition?]
  cases g.value? v with
  | none => rfl
  | some val => cases val <;> rfl

theorem Exact.retype (exact : g.Exact tracked) (id : GlobalId) (ty : Ty) : (g.setGlobalTy id ty).Exact tracked := by
  have size : (g.setGlobalTy id ty).values.size = g.values.size := Array.size_map
  refine ⟨⟨exact.valid.size_userLists.trans size.symm, exact.valid.size_results, exact.valid.ascending,
    fun i v => ?result_iff, exact.valid.uses⟩, exact.made, exact.users,
    fun i v operand => Nat.lt_of_lt_of_eq (exact.operands i v operand) size.symm,
    fun v val found w operand => Nat.lt_of_lt_of_eq ?exprs size.symm⟩
  case result_iff =>
    rw [definition?_setGlobalTy]
    exact exact.valid.result_iff i v
  case exprs =>
    rw [value?_setGlobalTy] at found
    obtain ⟨old, known, rfl⟩ := Option.map_eq_some_iff.mp found
    cases old <;> first | cases operand | exact exact.exprs v _ known w operand

theorem Exact.make (exact : g.Exact tracked) (known : ∀ v ∈ inst.operands, g.Has v) :
    (g.addInst inst).1.Exact (insert g.nextInst tracked) := by
  have operands (j : InstId) :
      (g.addInst inst).1.operands j = if j = g.nextInst then inst.operands else g.operands j := by
    rw [Graph.operands, inst?_addInst]
    split <;> rfl
  have values : (g.addInst inst).1.values = g.values := (congrArg Graph.values (addInst_eq g inst).1 :)
  have size : (g.addInst inst).1.insts.size = g.insts.size + 1 := by
    rw [congrArg Graph.insts (addInst_eq g inst).1, Array.size_push]
  -- Tracked instructions are made already, so the new one cannot be counted twice.
  have new : g.nextInst ∉ tracked := fun member => Nat.lt_irrefl _ (exact.made _ member)
  refine ⟨exact.valid.addInst inst, fun j member => ?made, fun v j => ?users, fun j v operand => ?operands,
    fun v val found w operand => ?exprs⟩
  case made =>
    rw [size]
    rcases member with rfl | before
    · exact Nat.lt_succ_self _
    · exact Nat.lt_succ_of_lt (exact.made j before)
  case users =>
    rw [mem_users_addInst, exact.users, operands, Set.mem_insert_iff]
    by_cases here : j = g.nextInst
    · subst here
      simp only [new, false_and, true_and, true_or, if_true, false_or, and_iff_left_iff_imp]
      exact fun operand => exact.valid.size_userLists ▸ known v operand
    · simp [here]
  case operands =>
    rw [Has, values]
    rw [operands] at operand
    split at operand
    next => exact known v operand
    next => exact exact.operands j v operand
  case exprs =>
    rw [Has, values]
    rw [value?_addInst] at found
    exact exact.exprs v val found w operand

/-! ### Edits of instructions -/

/-- An edit makes nothing new, so only operands and users need to be looked at. -/
theorem Exact.edit (exact : g.Exact tracked) {others : Set InstId} (fewer : others ⊆ tracked)
    (same : h = { g with insts := h.insts, userLists := h.userLists } ∧ h.userLists.size = g.userLists.size ∧
      h.insts.size = g.insts.size)
    (ascending : ∀ v, (h.users v).Pairwise (·.index < ·.index))
    (users : ∀ v i, i ∈ h.users v ↔ i ∈ others ∧ v ∈ h.operands i)
    (operands : ∀ i, ∀ v ∈ h.operands i, g.Has v) : h.Exact others := by
  obtain ⟨same, userLists, insts⟩ := same
  have values : h.values = g.values := (congrArg Graph.values same :)
  have size : g.values.size = h.values.size := congrArg Array.size values.symm
  have results : h.results = g.results := (congrArg Graph.results same :)
  have value (v : ValueId) : h.value? v = g.value? v := by rw [value?, values, value?]
  refine ⟨⟨?_, ?_, ascending, fun i v => ?_, fun v i user => ((users v i).mp user).2⟩,
    fun i member => insts ▸ exact.made i (fewer member), users,
    fun i v operand => Nat.lt_of_lt_of_eq (operands i v operand) size,
    fun v val found w operand => Nat.lt_of_lt_of_eq (exact.exprs v val (value v ▸ found) w operand) size⟩
  · rw [userLists, values, exact.valid.size_userLists]
  · rw [results, insts, exact.valid.size_results]
  · rw [result?, results, definition?_eq_some, value]
    exact (exact.valid.result_iff i v).trans definition?_eq_some

@[simp] theorem users_updateInst (g : Graph) (i : InstId) (f : Inst → Inst) (v : ValueId) :
    (g.updateInst i f).users v = g.users v := rfl

theorem setInst_eq (g : Graph) (i : InstId) (inst : Inst) :
    g.setInst i inst = { g with
      insts := (g.setInst i inst).insts
      userLists := (g.setInst i inst).userLists } ∧
    (g.setInst i inst).userLists.size = g.userLists.size ∧ (g.setInst i inst).insts.size = g.insts.size := by
  obtain ⟨dropped, size⟩ := untrack_eq g i
  rw [setInst, track_eq_addUsers]
  generalize ((g.untrack i).updateInst i fun _ => inst).operands i = operands
  obtain ⟨added, count⟩ := addUsers_eq ((g.untrack i).updateInst i fun _ => inst) (operands.map (i, ·))
  refine ⟨?_, count.trans size, ?_⟩
  · rw [added, updateInst, dropped]
  · rw [congrArg Graph.insts added, updateInst, congrArg Graph.insts dropped]
    exact Array.size_modify

theorem inst?_setInst (g : Graph) (i : InstId) (inst : Inst) (j : InstId) :
    (g.setInst i inst).inst? j = if j = i then (g.inst? j).map fun _ => inst else g.inst? j := by
  have written : (g.setInst i inst).inst? j = ((g.untrack i).updateInst i fun _ => inst).inst? j := by
    rw [setInst, track_eq_addUsers, inst?, congrArg Graph.insts (addUsers_eq _ _).1, inst?]
  rw [written, inst?_updateInst, inst?_untrack]

theorem operands_setInst (made : i.index < g.insts.size) (inst : Inst) (j : InstId) :
    (g.setInst i inst).operands j = if j = i then inst.operands else g.operands j := by
  rw [Graph.operands, inst?_setInst]
  split
  next here =>
    obtain ⟨old, found⟩ := exists_inst made
    simp [here, found]
  next => rfl

theorem mem_users_setInst (made : i.index < g.insts.size) (inst : Inst) (v : ValueId) (j : InstId) :
    j ∈ (g.setInst i inst).users v ↔ (j ∈ g.users v ∧ ¬(j = i ∧ v ∈ g.operands i)) ∨
      (j = i ∧ v ∈ inst.operands ∧ v.index < g.userLists.size) := by
  have operands : ((g.untrack i).updateInst i fun _ => inst).operands i = inst.operands := by
    obtain ⟨old, found⟩ := exists_inst made
    rw [Graph.operands, inst?_updateInst, if_pos rfl, inst?_untrack, found]
    rfl
  rw [setInst, track_eq_addUsers, mem_users_addUsers, operands, users_updateInst, mem_users_untrack, updateInst,
    (untrack_eq g i).2]
  simp [eq_comm, and_assoc, and_left_comm]

theorem Exact.set (exact : g.Exact tracked) (member : i ∈ tracked) (known : ∀ v ∈ inst.operands, g.Has v) :
    (g.setInst i inst).Exact tracked := by
  have made := exact.made i member
  refine exact.edit subset_rfl (setInst_eq g i inst) (fun v => ?ascending) (fun v j => ?users)
    fun j v operand => ?operands
  case ascending =>
    rw [setInst, track_eq_addUsers]
    refine ascending_addUsers _ (fun w => ?_) v
    rw [users_updateInst]
    exact ascending_untrack i exact.valid.ascending w
  case users =>
    rw [mem_users_setInst made, exact.users, operands_setInst made]
    by_cases here : j = i
    · subst here
      simp only [member, true_and, if_true, and_not_self, false_or, and_iff_left_iff_imp]
      exact fun operand => exact.valid.size_userLists ▸ known v operand
    · simp [here]
  case operands =>
    rw [operands_setInst made] at operand
    split at operand
    next => exact known v operand
    next => exact exact.operands j v operand

theorem operands_addIncoming (isPhi : g.isPhi i) (v : ValueId) (block : BlockId) (j : InstId) :
    (g.addIncoming i v block).operands j = if j = i then g.operands i ++ [v] else g.operands j := by
  change ((((g.updateInst i (·.addIncoming v block)).inst? j).map Inst.operands).getD []) = _
  rw [inst?_updateInst]
  split
  next here =>
    subst here
    unfold Graph.isPhi at isPhi
    cases found : g.inst? j with
    | none => simp [found] at isPhi
    | some inst => cases inst <;> simp_all [Inst.isPhi, Inst.addIncoming, Inst.operands, Graph.operands]
  next => rfl

theorem Exact.incoming (exact : g.Exact tracked) (member : i ∈ tracked) (isPhi : g.isPhi i) (known : g.Has v)
    (block : BlockId) : (g.addIncoming i v block).Exact tracked := by
  refine exact.edit subset_rfl ⟨rfl, ?size, ?insts⟩ (fun w => ?ascending) (fun w j => ?users)
    fun j w operand => ?operands
  case size => exact size_userLists_updateUsers _ v _
  case insts => exact Array.size_modify
  case ascending => exact ascending_updateUsers exact.valid.ascending (fun js => i.ascending_insertInto js) w
  case users =>
    change j ∈ (addUser _ i v).users w ↔ _
    rw [mem_users_addUser, operands_addIncoming isPhi]
    change j ∈ g.users w ∨ (_ ∧ w.index < g.userLists.size) ↔ _
    rw [exact.users]
    by_cases here : j = i
    · subst here
      simp only [member, Prod.mk.injEq, true_and, if_true, List.mem_append, List.mem_singleton]
      refine or_congr_right (and_iff_left_of_imp ?_)
      rintro rfl
      exact exact.valid.size_userLists ▸ known
    · simp [here]
  case operands =>
    rw [operands_addIncoming isPhi] at operand
    split at operand
    next =>
      rcases List.mem_append.mp operand with before | last
      · exact exact.operands i w before
      · exact List.mem_singleton.mp last ▸ known
    next => exact exact.operands j w operand

theorem mem_operands_replaceOperand (g : Graph) (i : InstId) (old new w : ValueId) (j : InstId) :
    w ∈ (g.replaceOperand i old new).operands j ↔ (w ∈ g.operands j ∧ ¬(j = i ∧ w = old)) ∨
      (j = i ∧ w = new ∧ old ∈ g.operands i) := by
  rw [mem_operands, inst?_replaceOperand]
  by_cases here : j = i
  · subst here
    cases found : g.inst? j with
    | none => simp [Graph.operands, found]
    | some inst => simp [Graph.operands, found, Inst.mem_operands_replace]
  · simp [here, mem_operands]

theorem mem_users_replaceOperand (g : Graph) (i : InstId) {old new : ValueId} (operand : old ∈ g.operands i)
    (w : ValueId) (j : InstId) : j ∈ (g.replaceOperand i old new).users w ↔
      (j ∈ g.users w ∧ ¬(j = i ∧ w = old)) ∨ (j = i ∧ w = new ∧ w.index < g.userLists.size) := by
  rw [replaceOperand, if_pos operand, mem_users_addUser, mem_users_removeUser, removeUser, size_userLists_updateUsers]
  simp [updateInst, users, and_assoc]

theorem Exact.operand (exact : g.Exact tracked) (member : i ∈ tracked) (old : ValueId) (known : g.Has new) :
    (g.replaceOperand i old new).Exact tracked := by
  by_cases operand : old ∈ g.operands i
  case neg => rwa [replaceOperand, if_neg operand]
  refine exact.edit subset_rfl (replaceOperand_eq g i old new) (fun w => ?ascending) (fun w j => ?users)
    fun j w inside => ?operands
  case ascending =>
    rw [replaceOperand, if_pos operand]
    exact ascending_updateUsers (ascending_updateUsers exact.valid.ascending fun js sorted => sorted.filter _)
      (fun js => i.ascending_insertInto js) w
  case users =>
    rw [mem_users_replaceOperand g i operand, mem_operands_replaceOperand, exact.users]
    have sized (same : w = new) : w.index < g.userLists.size := same ▸ exact.valid.size_userLists ▸ known
    by_cases here : j = i
    · subst here
      simp only [member, operand, true_and, and_true]
      exact or_congr_right (and_iff_left_of_imp sized)
    · simp [here]
  case operands =>
    rcases (mem_operands_replaceOperand ..).mp inside with ⟨before, -⟩ | ⟨-, rfl, -⟩
    · exact exact.operands j w before
    · exact known

theorem Exact.uses (exact : g.Exact tracked) (old : ValueId) (known : g.Has new) :
    (g.replaceUses old new).Exact tracked := by
  refine exact.edit subset_rfl (replaceUses_eq g old new) (ascending_replaceUses old new exact.valid.ascending)
    (fun w j => ?users) fun j w operand => ?operands
  case users =>
    rw [mem_users_replaceUses g (exact.valid.size_userLists ▸ known), mem_operands_replaceUses exact.valid]
    simp only [exact.users]
    grind
  case operands =>
    rcases (mem_operands_replaceUses exact.valid).mp operand with ⟨before, -⟩ | ⟨rfl, -⟩
    · exact exact.operands j w before
    · exact known

theorem Exact.untrack (exact : g.Exact tracked) (i : InstId) : (g.untrack i).Exact (tracked \ {i}) := by
  obtain ⟨same, size⟩ := untrack_eq g i
  have insts : (g.untrack i).insts = g.insts := (congrArg Graph.insts same :)
  refine exact.edit (fun j member => member.1) ⟨?_, size, congrArg Array.size insts⟩
    (ascending_untrack i exact.valid.ascending) (fun w j => ?users) fun j w operand => ?operands
  · rw [insts]
    exact same
  case users =>
    rw [exact.valid.mem_users_untrack, exact.users, operands_untrack, Set.mem_sdiff, Set.mem_singleton_iff,
      and_right_comm]
  case operands =>
    rw [operands_untrack] at operand
    exact exact.operands j w operand

/-! ### Runs -/

theorem exact_empty : empty.Exact ∅ := by
  have nothing (v : ValueId) : empty.value? v = none := rfl
  refine ⟨⟨rfl, rfl, fun v => ?_, fun i v => ?_, fun v i user => ?_⟩, nofun, fun v i => ?_, fun i v operand => ?_,
    fun v val found => ?_⟩
  all_goals simp_all [empty, Graph.users, Graph.operands, inst?, result?, definition?, value?]

theorem Step.exact {before after : Graph × Set InstId} (step : Step before after) (exact : before.1.Exact before.2) :
    after.1.Exact after.2 := by
  cases step with
  | value plain known => exact exact.value plain known
  | result made free ty => exact exact.result made free ty
  | retype id ty => exact exact.retype id ty
  | make known => exact exact.make known
  | set member known => exact exact.set member known
  | incoming member isPhi known block => exact exact.incoming member isPhi known block
  | operand member old known => exact exact.operand member old known
  | uses old known => exact exact.uses old known
  | untrack i => exact exact.untrack i

theorem Exact.run {before after : Graph × Set InstId} (exact : before.1.Exact before.2)
    (run : Relation.ReflTransGen Step before after) : after.1.Exact after.2 := by
  induction run with
  | refl => exact exact
  | tail _ last ih => exact last.exact ih

theorem Tracks.exact (tracks : g.Tracks tracked) : g.Exact tracked :=
  exact_empty.run tracks

theorem Tracks.step {others : Set InstId} (tracks : g.Tracks tracked) (step : Step (g, tracked) (h, others)) :
    h.Tracks others :=
  tracks.tail step

theorem tracks_empty : empty.Tracks ∅ :=
  .refl

/-! ### Expressions -/

/-- Expressions are made of values that were there before them. -/
def Grounded (g : Graph) : Prop :=
  ∀ v val, g.value? v = some val → ∀ w ∈ val.operands, w.index < v.index

/-- Values that are new are no expressions. -/
theorem Grounded.of_value (grounded : g.Grounded)
    (value : ∀ v val, h.value? v = some val → g.value? v = some val ∨ val.operands = []) : h.Grounded := by
  intro v val found w operand
  rcases value v val found with old | plain
  · exact grounded v val old w operand
  · rw [plain] at operand
    cases operand

theorem Grounded.of_values_eq (grounded : g.Grounded) (same : h.values = g.values) : h.Grounded := by
  apply grounded.of_value
  intro v val found
  rw [value?, same] at found
  exact .inl found

theorem Step.grounded {before after : Graph × Set InstId} (step : Step before after) (grounded : before.1.Grounded) :
    after.1.Grounded := by
  cases step with
  | @value g _ val _ known =>
    intro v other found w operand
    rw [value?_addValue] at found
    split at found
    next last =>
      cases found
      exact Nat.lt_of_lt_of_eq (known w operand) last.symm
    next => exact grounded v other found w operand
  | @result g _ i _ _ ty =>
    apply grounded.of_value
    intro v val found
    rw [value?_addResult] at found
    split at found
    next => cases found; exact .inr rfl
    next => exact .inl found
  | @retype g _ id ty =>
    apply grounded.of_value
    intro v val found
    rw [value?_setGlobalTy] at found
    obtain ⟨old, known, rfl⟩ := Option.map_eq_some_iff.mp found
    cases old <;> first | exact .inl known | exact .inr rfl
  | make known => exact grounded.of_values_eq (congrArg Graph.values (addInst_eq ..).1 :)
  | set member known => exact grounded.of_values_eq (congrArg Graph.values (setInst_eq ..).1 :)
  | incoming member isPhi known block => exact grounded.of_values_eq rfl
  | operand member old known => exact grounded.of_values_eq (congrArg Graph.values (replaceOperand_eq ..).1 :)
  | uses old known => exact grounded.of_values_eq (congrArg Graph.values (replaceUses_eq ..).1 :)
  | untrack i => exact grounded.of_values_eq (congrArg Graph.values (untrack_eq ..).1 :)

theorem Tracks.grounded (tracks : g.Tracks tracked) : g.Grounded := by
  have general (before after : Graph × Set InstId) (grounded : before.1.Grounded)
      (run : Relation.ReflTransGen Step before after) : after.1.Grounded := by
    induction run with
    | refl => exact grounded
    | tail _ last ih => exact last.grounded ih
  exact general _ _ (by intro v val found; cases found) tracks

/-- All that is used is there, expressions being made of what was there before them. -/
structure Complete (g : Graph) : Prop where
  operands : ∀ i, ∀ v ∈ g.operands i, g.Has v
  grounded : g.Grounded

theorem complete_iff (g : Graph) : g.Complete ↔ (∀ n < g.insts.size, ∀ v ∈ g.operands ⟨n⟩, v.index < g.values.size) ∧
    ∀ n < g.values.size, ∀ val ∈ g.value? ⟨n⟩, ∀ w ∈ val.operands, w.index < n := by
  constructor
  · intro complete
    exact ⟨fun n _ => complete.operands ⟨n⟩, fun n _ => complete.grounded ⟨n⟩⟩
  · rintro ⟨operands, grounded⟩
    refine ⟨fun i v operand => ?_, fun v val found => grounded v.index (value?_lt found) val found⟩
    obtain ⟨inst, found, -⟩ := mem_operands.mp operand
    exact operands i.index (inst?_lt found) v operand

instance (g : Graph) : Decidable g.Complete :=
  decidable_of_iff _ g.complete_iff.symm

theorem Tracks.complete (tracks : g.Tracks tracked) : g.Complete :=
  ⟨tracks.exact.operands, tracks.grounded⟩

/-! ### Values that may be there -/

theorem Tracks.findOrAdd (tracks : g.Tracks tracked) (p : Value → Bool) {val : Value}
    (plain : ∀ i ty, val ≠ .result i ty) (known : ∀ v ∈ val.operands, g.Has v) :
    (g.findOrAdd p val).1.Tracks tracked ∧ (g.findOrAdd p val).1.Has (g.findOrAdd p val).2 ∧
      (∀ v, g.Has v → (g.findOrAdd p val).1.Has v) ∧
      ∀ v, g.Has v → (g.findOrAdd p val).1.definition? v = g.definition? v := by
  rcases findOrAdd_cases g p val with ⟨v, old, found, -, same⟩ | new
  · rw [same]
    exact ⟨tracks, value?_lt found, fun _ known => known, fun _ _ => rfl⟩
  · rw [new]
    have size : (g.addValue val).1.values.size = g.values.size + 1 := Array.size_push _
    refine ⟨tracks.step (.value plain known), ?_, fun v there => ?_, fun v there => ?_⟩
    · rw [Has, size]
      exact Nat.lt_succ_self _
    · rw [Has, size]
      exact Nat.lt_succ_of_lt there
    · rw [definition?, value?_addValue_of_lt there, definition?]

end Graph

end VarRecovery
