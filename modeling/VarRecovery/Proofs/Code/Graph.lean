import VarRecovery.Code.Graph
import VarRecovery.Proofs.Code.Inst

/-!
What each operation does to a graph, told by what can be asked of it: values, instructions, results and
users.
-/

set_option autoImplicit false

namespace VarRecovery

attribute [ext] InstId ValueId

namespace InstId

theorem mem_insertInto (i j : InstId) (js : List InstId) : j ∈ i.insertInto js ↔ j = i ∨ j ∈ js := by
  induction js with
  | nil => simp [insertInto]
  | cons k ks ih =>
    unfold insertInto
    split
    · simp
    · split
      next same => simp [same]
      · simp [ih, or_left_comm]

theorem ascending_insertInto (i : InstId) (js : List InstId)
    (ascending : js.Pairwise (·.index < ·.index)) : (i.insertInto js).Pairwise (·.index < ·.index) := by
  induction js with
  | nil => exact List.pairwise_singleton _ _
  | cons k ks ih =>
    obtain ⟨above, tail⟩ := List.pairwise_cons.mp ascending
    unfold insertInto
    split
    next below =>
      refine List.pairwise_cons.mpr ⟨fun j member => ?_, ascending⟩
      rcases List.mem_cons.mp member with rfl | inside
      · exact below
      · exact Nat.lt_trans below (above j inside)
    next notBelow =>
      split
      next same => exact ascending
      next differ =>
        refine List.pairwise_cons.mpr ⟨fun j member => ?_, ih tail⟩
        rcases (mem_insertInto i j ks).mp member with rfl | inside
        · have distinct : j.index ≠ k.index := fun same => differ (by cases j; cases k; simp_all)
          omega
        · exact above j inside

end InstId

namespace Graph

variable {g : Graph}

/-! ### Values -/

theorem value?_addValue (g : Graph) (val : Value) (v : ValueId) :
    (g.addValue val).1.value? v = if v.index = g.values.size then some val else g.value? v := by
  simp [addValue, value?, Array.getElem?_push]

theorem value?_setGlobalTy (g : Graph) (id : GlobalId) (ty : Ty) (v : ValueId) :
    (g.setGlobalTy id ty).value? v = (g.value? v).map fun
      | .global other old => .global other (if other = id then ty else old)
      | val => val := by
  unfold value? setGlobalTy
  exact Array.getElem?_map

theorem value?_addValue_of_lt {v : ValueId} (inside : v.index < g.values.size) (val : Value) :
    (g.addValue val).1.value? v = g.value? v := by
  rw [value?_addValue, if_neg (Nat.ne_of_lt inside)]

@[simp] theorem users_addValue (g : Graph) (val : Value) (v : ValueId) :
    (g.addValue val).1.users v = g.users v := by
  simp only [addValue, users, Array.getD_eq_getD_getElem?, Array.getElem?_push]
  split
  next same => simp [same]
  next => rfl

@[simp] theorem insts_addValue (g : Graph) (val : Value) : (g.addValue val).1.insts = g.insts := rfl

@[simp] theorem results_addValue (g : Graph) (val : Value) : (g.addValue val).1.results = g.results := rfl

theorem findOrAdd_cases (g : Graph) (p : Value → Bool) (val : Value) :
    (∃ v known, g.value? v = some known ∧ p known = true ∧ g.findOrAdd p val = (g, v)) ∨
      g.findOrAdd p val = g.addValue val := by
  unfold findOrAdd
  split
  next index found =>
    obtain ⟨known, inside, holds⟩ := Array.findIdx?_eq_some_iff_getElem.mp found
    exact .inl ⟨⟨index⟩, _, Array.getElem?_eq_getElem known, inside, rfl⟩
  next => exact .inr rfl

theorem addImm_cases (g : Graph) (i : Imm) :
    (∃ v, g.value? v = some (.imm i) ∧ g.addImm i = (g, v)) ∨ g.addImm i = g.addValue (.imm i) := by
  refine (findOrAdd_cases g (· = .imm i) (.imm i)).imp_left ?_
  rintro ⟨v, known, found, same, result⟩
  exact ⟨v, of_decide_eq_true same ▸ found, result⟩

theorem insts_findOrAdd (g : Graph) (p : Value → Bool) (val : Value) : (g.findOrAdd p val).1.insts = g.insts := by
  rcases findOrAdd_cases g p val with ⟨v, known, -, -, same⟩ | new
  · rw [same]
  · rw [new, insts_addValue]

@[simp] theorem insts_addImm (g : Graph) (i : Imm) : (g.addImm i).1.insts = g.insts :=
  g.insts_findOrAdd _ _

@[simp] theorem users_addImm (g : Graph) (i : Imm) (v : ValueId) : (g.addImm i).1.users v = g.users v := by
  rcases addImm_cases g i with ⟨w, -, same⟩ | new
  · rw [same]
  · rw [new, users_addValue]

@[simp] theorem inst?_addImm (g : Graph) (i : Imm) (j : InstId) : (g.addImm i).1.inst? j = g.inst? j := by
  rw [inst?, insts_addImm, inst?]

/-! ### Users -/

theorem lt_of_mem_users {i : InstId} {v : ValueId} (member : i ∈ g.users v) :
    v.index < g.userLists.size := by
  refine Nat.lt_of_not_le fun outside => ?_
  simp [users, Array.getElem?_eq_none outside] at member

theorem users_updateUsers (g : Graph) (v w : ValueId) (f : List InstId → List InstId) :
    (g.updateUsers v f).users w =
      if w = v ∧ v.index < g.userLists.size then f (g.users w) else g.users w := by
  simp only [updateUsers, users, Array.getD_eq_getD_getElem?, Array.getElem?_modify]
  by_cases same : w = v
  · subst same
    by_cases inside : w.index < g.userLists.size <;> simp [inside]
  · have differ : v.index ≠ w.index := fun h => same (by cases v; cases w; simp_all)
    simp [same, differ]

theorem ascending_updateUsers {v : ValueId} {f : List InstId → List InstId}
    (ascending : ∀ w, (g.users w).Pairwise (·.index < ·.index))
    (kept : ∀ js : List InstId, js.Pairwise (·.index < ·.index) → (f js).Pairwise (·.index < ·.index))
    (w : ValueId) : ((g.updateUsers v f).users w).Pairwise (·.index < ·.index) := by
  rw [users_updateUsers]
  split
  · exact kept _ (ascending w)
  · exact ascending w

@[simp] theorem size_userLists_updateUsers (g : Graph) (v : ValueId) (f : List InstId → List InstId) :
    (g.updateUsers v f).userLists.size = g.userLists.size := by
  simp [updateUsers]

theorem mem_users_addUser (g : Graph) (i j : InstId) (v w : ValueId) :
    j ∈ (g.addUser i v).users w ↔ j ∈ g.users w ∨ ((j, w) = (i, v) ∧ w.index < g.userLists.size) := by
  rw [addUser, users_updateUsers]
  split
  next here => simp [InstId.mem_insertInto, here, Prod.ext_iff, or_comm]
  next elsewhere =>
    refine (or_iff_left ?_).symm
    rintro ⟨⟨rfl, rfl⟩, inside⟩
    exact elsewhere ⟨rfl, inside⟩

theorem mem_users_removeUser (g : Graph) (i j : InstId) (v w : ValueId) :
    j ∈ (g.removeUser i v).users w ↔ j ∈ g.users w ∧ ¬(j = i ∧ w = v) := by
  rw [removeUser, users_updateUsers]
  split
  next here => simp [here]
  next elsewhere =>
    refine ⟨fun member => ⟨member, ?_⟩, And.left⟩
    rintro ⟨rfl, rfl⟩
    exact elsewhere ⟨rfl, lt_of_mem_users member⟩

/-- Several users at once, each with a value it uses. -/
def addUsers (g : Graph) (uses : List (InstId × ValueId)) : Graph :=
  uses.foldl (fun g use => g.addUser use.1 use.2) g

theorem track_eq_addUsers (g : Graph) (i : InstId) : g.track i = g.addUsers ((g.operands i).map (i, ·)) := by
  simp [track, addUsers, List.foldl_map]

theorem addUsers_eq (g : Graph) (uses : List (InstId × ValueId)) :
    g.addUsers uses = { g with userLists := (g.addUsers uses).userLists } ∧
      (g.addUsers uses).userLists.size = g.userLists.size := by
  induction uses generalizing g with
  | nil => exact ⟨rfl, rfl⟩
  | cons use rest ih =>
    obtain ⟨same, size⟩ := ih (g.addUser use.1 use.2)
    exact ⟨same, size.trans (size_userLists_updateUsers g _ _)⟩

theorem mem_users_addUsers (g : Graph) (uses : List (InstId × ValueId)) (j : InstId) (w : ValueId) :
    j ∈ (g.addUsers uses).users w ↔
      j ∈ g.users w ∨ ((j, w) ∈ uses ∧ w.index < g.userLists.size) := by
  induction uses generalizing g with
  | nil => simp [addUsers]
  | cons use rest ih =>
    have whole := ih (g.addUser use.1 use.2)
    rw [mem_users_addUser, addUser, size_userLists_updateUsers] at whole
    refine whole.trans ?_
    rw [List.mem_cons, or_and_right, or_assoc]

theorem ascending_addUsers (uses : List (InstId × ValueId))
    (ascending : ∀ w, (g.users w).Pairwise (·.index < ·.index)) (w : ValueId) :
    ((g.addUsers uses).users w).Pairwise (·.index < ·.index) := by
  induction uses generalizing g with
  | nil => exact ascending w
  | cons use rest ih =>
    exact ih (ascending_updateUsers ascending fun js => InstId.ascending_insertInto use.1 js)

theorem untrack_eq (g : Graph) (i : InstId) :
    g.untrack i = { g with userLists := (g.untrack i).userLists } ∧
      (g.untrack i).userLists.size = g.userLists.size := by
  unfold untrack
  induction g.operands i generalizing g with
  | nil => exact ⟨rfl, rfl⟩
  | cons v vs ih =>
    obtain ⟨same, size⟩ := ih (g.removeUser i v)
    exact ⟨same, size.trans (size_userLists_updateUsers g _ _)⟩

theorem mem_users_untrack (g : Graph) (i j : InstId) (w : ValueId) :
    j ∈ (g.untrack i).users w ↔ j ∈ g.users w ∧ ¬(j = i ∧ w ∈ g.operands i) := by
  unfold untrack
  induction g.operands i generalizing g with
  | nil => simp
  | cons v vs ih =>
    rw [List.foldl_cons, ih, mem_users_removeUser, List.mem_cons, and_assoc, ← not_or, ← and_or_left]

theorem ascending_untrack (i : InstId) (ascending : ∀ w, (g.users w).Pairwise (·.index < ·.index))
    (w : ValueId) : ((g.untrack i).users w).Pairwise (·.index < ·.index) := by
  unfold untrack
  induction g.operands i generalizing g with
  | nil => exact ascending w
  | cons v vs ih =>
    exact ih (ascending_updateUsers ascending fun js sorted => sorted.filter _)

/-! ### New instructions -/

def nextInst (g : Graph) : InstId :=
  ⟨g.insts.size⟩

def nextValue (g : Graph) : ValueId :=
  ⟨g.values.size⟩

/-- A new instruction and its result. -/
def emit (g : Graph) (inst : Inst) (ty : Ty) : Graph :=
  ((g.addInst inst).1.addResult g.nextInst ty).1

theorem addInst_eq (g : Graph) (inst : Inst) :
    (g.addInst inst).1 =
        { g with
          insts := g.insts.push inst
          results := g.results.push none
          userLists := (g.addInst inst).1.userLists } ∧
      (g.addInst inst).1.userLists.size = g.userLists.size := by
  rw [addInst, track_eq_addUsers]
  exact addUsers_eq _ _

theorem mem_users_addInst (g : Graph) (inst : Inst) (j : InstId) (w : ValueId) :
    j ∈ (g.addInst inst).1.users w ↔
      j ∈ g.users w ∨ (j = g.nextInst ∧ w ∈ inst.operands ∧ w.index < g.userLists.size) := by
  have operands : ({ g with insts := g.insts.push inst, results := g.results.push none } : Graph).operands
      g.nextInst = inst.operands := by
    simp [Graph.operands, inst?, nextInst]
  rw [addInst, track_eq_addUsers, mem_users_addUsers]
  change _ ∨ ((j, w) ∈ (Graph.operands _ g.nextInst).map (g.nextInst, ·) ∧ _) ↔ _
  rw [operands]
  simp [users, eq_comm, and_assoc, and_left_comm]

theorem ascending_addInst (inst : Inst) (ascending : ∀ w, (g.users w).Pairwise (·.index < ·.index))
    (w : ValueId) : ((g.addInst inst).1.users w).Pairwise (·.index < ·.index) := by
  rw [addInst]
  simp only [track_eq_addUsers]
  exact ascending_addUsers _ (by exact ascending) w

theorem value?_addInst (g : Graph) (inst : Inst) (v : ValueId) : (g.addInst inst).1.value? v = g.value? v := by
  rw [value?, congrArg Graph.values (addInst_eq g inst).1, value?]

theorem inst?_addInst (g : Graph) (inst : Inst) (j : InstId) :
    (g.addInst inst).1.inst? j = if j = g.nextInst then some inst else g.inst? j := by
  rw [inst?, congrArg Graph.insts (addInst_eq g inst).1]
  simp [nextInst, InstId.ext_iff, inst?, Array.getElem?_push]

theorem result?_addInst (g : Graph) (inst : Inst) (j : InstId) : (g.addInst inst).1.result? j = g.result? j := by
  rw [result?, congrArg Graph.results (addInst_eq g inst).1, result?]
  simp only [Array.getD_eq_getD_getElem?, Array.getElem?_push]
  split
  next here => simp [here]
  next => rfl

theorem value?_addResult (g : Graph) (i : InstId) (ty : Ty) (v : ValueId) :
    (g.addResult i ty).1.value? v = if v = g.nextValue then some (.result i ty) else g.value? v := by
  refine (value?_addValue g _ v).trans ?_
  simp [nextValue, ValueId.ext_iff]

@[simp] theorem users_addResult (g : Graph) (i : InstId) (ty : Ty) (v : ValueId) :
    (g.addResult i ty).1.users v = g.users v :=
  users_addValue g (.result i ty) v

theorem result?_addResult {i : InstId} (made : i.index < g.results.size) (ty : Ty) (j : InstId) :
    (g.addResult i ty).1.result? j = if j = i then some g.nextValue else g.result? j := by
  change (g.results.setIfInBounds i.index (some g.nextValue)).getD j.index none = _
  simp only [result?, Array.getD_eq_getD_getElem?, Array.getElem?_setIfInBounds, InstId.ext_iff]
  by_cases same : j.index = i.index
  · simp [same, made]
  · simp [same, Ne.symm same]

theorem nextValue_addInst (g : Graph) (inst : Inst) : (g.addInst inst).1.nextValue = g.nextValue := by
  rw [nextValue, congrArg Graph.values (addInst_eq g inst).1, nextValue]

theorem value?_emit (g : Graph) (inst : Inst) (ty : Ty) (v : ValueId) :
    (g.emit inst ty).value? v = if v = g.nextValue then some (.result g.nextInst ty) else g.value? v := by
  rw [emit, value?_addResult, nextValue_addInst, value?_addInst]

theorem inst?_emit (g : Graph) (inst : Inst) (ty : Ty) (j : InstId) :
    (g.emit inst ty).inst? j = if j = g.nextInst then some inst else g.inst? j :=
  inst?_addInst g inst j

theorem result?_emit (sized : g.results.size = g.insts.size) (inst : Inst) (ty : Ty) (j : InstId) :
    (g.emit inst ty).result? j = if j = g.nextInst then some g.nextValue else g.result? j := by
  have made : g.nextInst.index < (g.addInst inst).1.results.size := by
    rw [congrArg Graph.results (addInst_eq g inst).1, Array.size_push, sized]
    exact Nat.lt_succ_self _
  rw [emit, result?_addResult made, nextValue_addInst, result?_addInst]

theorem mem_users_emit (g : Graph) (inst : Inst) (ty : Ty) (j : InstId) (w : ValueId) :
    j ∈ (g.emit inst ty).users w ↔
      j ∈ g.users w ∨ (j = g.nextInst ∧ w ∈ inst.operands ∧ w.index < g.userLists.size) := by
  rw [emit, users_addResult, mem_users_addInst]

theorem size_insts_emit (g : Graph) (inst : Inst) (ty : Ty) :
    (g.emit inst ty).insts.size = g.insts.size + 1 := by
  have insts := congrArg Graph.insts (addInst_eq g inst).1
  change (g.addInst inst).1.insts.size = _
  rw [insts, Array.size_push]

/-! ### Operands in the place of others -/

theorem inst?_updateInst (g : Graph) (i j : InstId) (f : Inst → Inst) :
    (g.updateInst i f).inst? j = if j = i then (g.inst? j).map f else g.inst? j := by
  simp only [updateInst, inst?, Array.getElem?_modify, InstId.ext_iff]
  by_cases same : j.index = i.index
  · simp [same]
  · simp [same, Ne.symm same]

theorem replaceOperand_eq (g : Graph) (i : InstId) (old new : ValueId) :
    g.replaceOperand i old new =
        { g with
          insts := (g.replaceOperand i old new).insts
          userLists := (g.replaceOperand i old new).userLists } ∧
      (g.replaceOperand i old new).userLists.size = g.userLists.size ∧
      (g.replaceOperand i old new).insts.size = g.insts.size := by
  unfold replaceOperand
  split
  · exact ⟨rfl, by simp [addUser, removeUser, updateInst],
      by simp [addUser, removeUser, updateUsers, updateInst]⟩
  · exact ⟨rfl, rfl, rfl⟩

theorem inst?_replaceOperand (g : Graph) (i j : InstId) (old new : ValueId) :
    (g.replaceOperand i old new).inst? j =
      if j = i then (g.inst? j).map (·.replace old new) else g.inst? j := by
  unfold replaceOperand
  split
  next => exact inst?_updateInst g i j _
  next absent =>
    split
    next same =>
      subst same
      cases found : g.inst? j with
      | none => rfl
      | some inst =>
        rw [Option.map_some, Inst.replace_of_not_mem]
        simpa [operands, found] using absent
    next => rfl

def updateInsts (g : Graph) (is : List InstId) (f : Inst → Inst) : Graph :=
  is.foldl (fun g i => g.updateInst i f) g

theorem updateInsts_eq (g : Graph) (is : List InstId) (f : Inst → Inst) :
    g.updateInsts is f = { g with insts := (g.updateInsts is f).insts } ∧
      (g.updateInsts is f).insts.size = g.insts.size := by
  induction is generalizing g with
  | nil => exact ⟨rfl, rfl⟩
  | cons i is ih =>
    obtain ⟨same, size⟩ := ih (g.updateInst i f)
    exact ⟨same, size.trans (by simp [updateInst])⟩

theorem inst?_updateInsts (g : Graph) (is : List InstId) {f : Inst → Inst}
    (once : ∀ inst, f (f inst) = f inst) (j : InstId) :
    (g.updateInsts is f).inst? j = if j ∈ is then (g.inst? j).map f else g.inst? j := by
  induction is generalizing g with
  | nil => rfl
  | cons i is ih =>
    have whole := ih (g.updateInst i f)
    rw [inst?_updateInst] at whole
    refine whole.trans ?_
    by_cases same : j = i
    · subst same
      by_cases again : j ∈ is <;> simp [again, Function.comp_def, once]
    · simp [same]

theorem replaceUses_eq_addUsers (g : Graph) (old new : ValueId) :
    g.replaceUses old new =
      ((g.updateUsers old fun _ => []).updateInsts (g.users old) (·.replace old new)).addUsers
        ((g.users old).map (·, new)) := by
  simp [replaceUses, updateInsts, addUsers, List.foldl_map]

theorem replaceUses_eq (g : Graph) (old new : ValueId) :
    g.replaceUses old new =
        { g with
          insts := (g.replaceUses old new).insts
          userLists := (g.replaceUses old new).userLists } ∧
      (g.replaceUses old new).userLists.size = g.userLists.size ∧
      (g.replaceUses old new).insts.size = g.insts.size := by
  rw [replaceUses_eq_addUsers]
  generalize cleared : (g.updateUsers old fun _ => []) = g₀
  obtain ⟨updated, size⟩ := updateInsts_eq g₀ (g.users old) (·.replace old new)
  generalize (g₀.updateInsts (g.users old) (·.replace old new)) = g₁ at updated size
  obtain ⟨added, count⟩ := addUsers_eq g₁ ((g.users old).map (·, new))
  rw [added, updated, ← cleared]
  subst cleared
  refine ⟨rfl, ?_, ?_⟩
  · rw [added, updated] at count
    simpa using count
  · exact size

theorem inst?_replaceUses (g : Graph) (old new : ValueId) (j : InstId) :
    (g.replaceUses old new).inst? j =
      if j ∈ g.users old then (g.inst? j).map (·.replace old new) else g.inst? j := by
  rw [replaceUses_eq_addUsers]
  have added := congrArg Graph.insts (addUsers_eq
    ((g.updateUsers old fun _ => []).updateInsts (g.users old) (·.replace old new))
    ((g.users old).map (·, new))).1
  rw [inst?, added]
  exact inst?_updateInsts _ _ (Inst.replace_replace old new) j

theorem mem_users_replaceUses (g : Graph) {old new : ValueId} (inside : new.index < g.userLists.size)
    (j : InstId) (w : ValueId) :
    j ∈ (g.replaceUses old new).users w ↔
      (j ∈ g.users w ∧ w ≠ old) ∨ (w = new ∧ j ∈ g.users old) := by
  rw [replaceUses_eq_addUsers, mem_users_addUsers]
  have updated := (updateInsts_eq (g.updateUsers old fun _ => []) (g.users old) (·.replace old new)).1
  have users (v : ValueId) : ((g.updateUsers old fun _ => []).updateInsts (g.users old)
      (·.replace old new)).users v = (g.updateUsers old fun _ => []).users v := by
    rw [updated]
    rfl
  have size : ((g.updateUsers old fun _ => []).updateInsts (g.users old)
      (·.replace old new)).userLists.size = g.userLists.size := by
    rw [updated]
    exact size_userLists_updateUsers g _ _
  -- The old list is emptied first; what is added afterwards goes to the new value alone.
  have cleared : j ∈ (g.updateUsers old fun _ => []).users w ↔ j ∈ g.users w ∧ w ≠ old := by
    rw [users_updateUsers]
    split
    next here => simp [here.1]
    next elsewhere =>
      refine ⟨fun member => ⟨member, ?_⟩, And.left⟩
      rintro rfl
      exact elsewhere ⟨rfl, lt_of_mem_users member⟩
  rw [users, cleared, size]
  refine or_congr_right ?_
  constructor
  · rintro ⟨member, -⟩
    obtain ⟨i, user, same⟩ := List.mem_map.mp member
    cases same
    exact ⟨rfl, user⟩
  · rintro ⟨rfl, user⟩
    exact ⟨List.mem_map.mpr ⟨j, user, rfl⟩, inside⟩

theorem ascending_replaceUses (old new : ValueId)
    (ascending : ∀ w, (g.users w).Pairwise (·.index < ·.index)) (w : ValueId) :
    ((g.replaceUses old new).users w).Pairwise (·.index < ·.index) := by
  rw [replaceUses_eq_addUsers]
  refine ascending_addUsers _ (fun v => ?_) w
  have updated := (updateInsts_eq (g.updateUsers old fun _ => []) (g.users old) (·.replace old new)).1
  have users : ((g.updateUsers old fun _ => []).updateInsts (g.users old) (·.replace old new)).users v =
      (g.updateUsers old fun _ => []).users v := by
    rw [updated]
    rfl
  rw [users]
  exact ascending_updateUsers ascending (fun _ _ => .nil) v

end Graph

end VarRecovery
