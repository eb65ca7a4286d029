import VarRecovery.Proofs.Pointer.Growth

/-!
Removing dead code is a chain of edits, and leaves no dead code behind.
-/

set_option autoImplicit false

namespace VarRecovery.Func

variable {typed fed closed : Prop} {f g h : Func}

/-- What taking out a dead instruction keeps, removing dead code keeps. -/
theorem removeDeadFrom_keeps {P : Func → Prop} (remove : ∀ f i, i ∈ f.code → f.isDead i → P f → P (f.remove i))
    (start : P f) (work : List InstId) : P (f.removeDeadFrom work).1 := by
  induction f, work using removeDeadFrom.induct with
  | case1 f =>
    rw [removeDeadFrom]
    exact start
  | case2 f i rest listed dead operands _ _ _ ih =>
    rw [removeDeadFrom, dif_pos listed, if_pos dead]
    exact ih (remove f i listed dead start)
  | case3 f i rest listed alive ih =>
    rw [removeDeadFrom, dif_pos listed, if_neg alive]
    exact ih start
  | case4 f i rest absent ih =>
    rw [removeDeadFrom, dif_neg absent]
    exact ih start

theorem removeDeadFrom_edits (typed fed closed : Prop) (f : Func) (work : List InstId) :
    ∃ swept, Edits typed fed closed [] swept f (f.removeDeadFrom work).1 :=
  removeDeadFrom_keeps (P := fun g => ∃ swept, Edits typed fed closed [] swept f g)
    (fun _ _ listed dead ⟨_, edits⟩ => ⟨_, edits.sweep listed dead⟩) ⟨[], .refl f⟩ work

/-! ### No dead code is left -/

theorem isDead_remove (valid : f.Valid) {i j : InstId} (dead : (f.remove i).isDead j) (other : j ≠ i) :
    f.isDead j ∨ j ∈ (f.graph.operands i).filterMap f.graph.definition? := by
  obtain ⟨inst, v, found, isPure, result, unused⟩ := isDead_iff.mp dead
  rw [remove, Graph.inst?_untrack] at found
  rw [remove, Graph.result?_untrack] at result
  -- Only results that the instruction used lose a user when it goes.
  by_cases operand : v ∈ f.graph.operands i
  · exact .inr (List.mem_filterMap.mpr ⟨v, operand, (valid.graph.result_iff j v).mp result⟩)
  · refine .inl (isDead_iff.mpr ⟨inst, v, found, isPure, result, ?_⟩)
    refine List.eq_nil_iff_forall_not_mem.mpr fun k user => ?_
    have still : k ∈ (f.graph.untrack i).users v := by
      refine valid.graph.mem_users_untrack.mpr ⟨user, ?_⟩
      rintro rfl
      exact operand (valid.graph.uses v k user)
    rw [remove] at unused
    simp [unused] at still

/-- All that is dead is still to be looked at. -/
def Pending (f : Func) (work : List InstId) : Prop :=
  ∀ i ∈ f.code, f.isDead i → i ∈ work

theorem Pending.of_alive {i : InstId} {rest : List InstId} (pending : f.Pending (i :: rest))
    (alive : ¬(i ∈ f.code ∧ f.isDead i)) : f.Pending rest := by
  intro j listed dead
  rcases List.mem_cons.mp (pending j listed dead) with rfl | later
  · exact absurd ⟨listed, dead⟩ alive
  · exact later

theorem Pending.remove {i : InstId} {rest : List InstId} (valid : f.Valid) (pending : f.Pending (i :: rest)) :
    (f.remove i).Pending (((f.graph.operands i).filterMap f.graph.definition?).reverse ++ rest) := by
  intro j listed dead
  obtain ⟨before, other⟩ := mem_code_remove.mp listed
  rcases isDead_remove valid dead other with deadBefore | produced
  · rcases List.mem_cons.mp (pending j before deadBefore) with same | later
    · exact absurd same other
    · exact List.mem_append_right _ later
  · exact List.mem_append_left _ (List.mem_reverse.mpr produced)

theorem removeDeadFrom_alive (f : Func) (work : List InstId) (valid : f.Valid) (pending : f.Pending work) :
    ∀ i ∈ (f.removeDeadFrom work).1.code, (f.removeDeadFrom work).1.isDead i = false := by
  induction f, work using removeDeadFrom.induct with
  | case1 f =>
    rw [removeDeadFrom]
    intro i listed
    exact Bool.eq_false_iff.mpr fun dead => nomatch pending i listed dead
  | case2 f i rest listed dead operands _ _ _ ih =>
    rw [removeDeadFrom, dif_pos listed, if_pos dead]
    exact ih (valid.remove i) (pending.remove valid)
  | case3 f i rest listed alive ih =>
    rw [removeDeadFrom, dif_pos listed, if_neg alive]
    exact ih valid (pending.of_alive fun both => alive both.2)
  | case4 f i rest absent ih =>
    rw [removeDeadFrom, dif_neg absent]
    exact ih valid (pending.of_alive fun both => absent both.1)

theorem removeDead_alive (valid : f.Valid) : ∀ i ∈ f.removeDead.1.code, f.removeDead.1.isDead i = false :=
  removeDeadFrom_alive f _ valid fun _ listed _ => List.mem_reverse.mpr listed

theorem removeDeadFrom_of_alive (alive : ∀ i ∈ f.code, f.isDead i = false) (work : List InstId) :
    f.removeDeadFrom work = (f, 0) := by
  induction work with
  | nil => rw [removeDeadFrom]
  | cons i rest ih =>
    rw [removeDeadFrom]
    split
    next listed => rw [if_neg (by simp [alive i listed]), ih]
    next => exact ih

/-! ### What is left -/

/-- Code as before without some of it: nothing but users and code is fewer. -/
structure Remains (f g : Func) : Prop where
  value : ∀ v, g.graph.value? v = f.graph.value? v
  inst : ∀ i, g.graph.inst? i = f.graph.inst? i
  result : ∀ i, g.graph.result? i = f.graph.result? i
  user : ∀ v i, i ∈ g.graph.users v → i ∈ f.graph.users v
  listed : ∀ i ∈ g.code, i ∈ f.code
  blockIds : g.listing.blockIds = f.listing.blockIds

theorem Remains.refl (f : Func) : f.Remains f :=
  ⟨fun _ => rfl, fun _ => rfl, fun _ => rfl, fun _ _ user => user, fun _ listed => listed, rfl⟩

theorem Remains.trans (first : f.Remains g) (second : g.Remains h) : f.Remains h where
  value v := (second.value v).trans (first.value v)
  inst i := (second.inst i).trans (first.inst i)
  result i := (second.result i).trans (first.result i)
  user v i user := first.user v i (second.user v i user)
  listed i listed := first.listed i (second.listed i listed)
  blockIds := second.blockIds.trans first.blockIds

theorem Remains.remove (f : Func) (i : InstId) : f.Remains (f.remove i) where
  value := f.graph.value?_untrack i
  inst := f.graph.inst?_untrack i
  result := f.graph.result?_untrack i
  user v j user := ((f.graph.mem_users_untrack i j v).mp user).1
  listed _ listed := (mem_code_remove.mp listed).1
  blockIds := Listing.blockIds_updateAll _ _

theorem removeDeadFrom_remains (f : Func) (work : List InstId) : f.Remains (f.removeDeadFrom work).1 :=
  removeDeadFrom_keeps (P := f.Remains) (fun g i _ _ before => before.trans (.remove g i)) (.refl f) work

end VarRecovery.Func
