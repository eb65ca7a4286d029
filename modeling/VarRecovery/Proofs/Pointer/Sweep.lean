import Mathlib.Order.Bounds.Basic
import VarRecovery.Proofs.Pointer.DeadCode
import VarRecovery.Proofs.Pointer.Decidable

/-!
Which code is removed as dead. It is the least set of instructions that only compute what nothing outside of the set
uses, so it does not matter in which order dead instructions are taken out.
-/

set_option autoImplicit false

namespace VarRecovery

namespace Graph

variable {g : Graph} {i : InstId}

theorem userLists_ext {h : Graph} (size : g.userLists.size = h.userLists.size) (same : ∀ v, g.users v = h.users v) :
    g.userLists = h.userLists := by
  apply Array.ext size
  intro n inside there
  simpa [users, inside, there] using same ⟨n⟩

theorem users_removeUser (g : Graph) (i : InstId) (v w : ValueId) :
    (g.removeUser i v).users w = if w = v then (g.users w).filter (· ≠ i) else g.users w := by
  rw [removeUser, users_updateUsers]
  by_cases same : w = v
  · subst same
    by_cases inside : w.index < g.userLists.size
    · simp [inside]
    · simp [inside, users]
  · simp [same]

theorem users_removeUsers (g : Graph) (i : InstId) (vs : List ValueId) (w : ValueId) :
    (vs.foldl (·.removeUser i) g).users w = if w ∈ vs then (g.users w).filter (· ≠ i) else g.users w := by
  induction vs generalizing g with
  | nil => rfl
  | cons v vs ih =>
    rw [List.foldl_cons, ih, users_removeUser]
    by_cases here : w = v <;> by_cases later : w ∈ vs <;> simp [here, later]

theorem users_untrack (uses : ∀ v, ∀ j ∈ g.users v, v ∈ g.operands j) (i : InstId) (v : ValueId) :
    (g.untrack i).users v = (g.users v).filter (· ≠ i) := by
  rw [untrack, users_removeUsers]
  split
  next => rfl
  next other =>
    -- What the instruction does not use does not have it as a user.
    symm
    rw [List.filter_eq_self]
    intro j user
    have differs : j ≠ i := by
      rintro rfl
      exact other (uses v j user)
    simpa using differs

end Graph

namespace Func

variable {f g h : Func} {gone others work is js : List InstId} {closed : Set InstId} {i : InstId}

/-! ### Functions without some of their code -/

def without (f : Func) (gone : List InstId) : Func :=
  { f with
    graph := { f.graph with userLists := f.graph.userLists.map (·.filter (· ∉ gone)) }
    listing := ⟨f.listing.blocks.map fun b => (b.1, b.2.filter (· ∉ gone))⟩ }

@[simp] theorem inst?_without (f : Func) (gone : List InstId) (i : InstId) :
    (f.without gone).graph.inst? i = f.graph.inst? i := rfl

@[simp] theorem operands_without (f : Func) (gone : List InstId) (i : InstId) :
    (f.without gone).graph.operands i = f.graph.operands i := rfl

@[simp] theorem result?_without (f : Func) (gone : List InstId) (i : InstId) :
    (f.without gone).graph.result? i = f.graph.result? i := rfl

@[simp] theorem users_without (f : Func) (gone : List InstId) (v : ValueId) :
    (f.without gone).graph.users v = (f.graph.users v).filter (· ∉ gone) := by
  simp only [without, Graph.users, Array.getD_eq_getD_getElem?, Array.getElem?_map]
  cases f.graph.userLists[v.index]? <;> simp

@[simp] theorem code_without (f : Func) (gone : List InstId) :
    (f.without gone).code = f.code.filter (· ∉ gone) := by
  simp [without, code, Listing.allInsts, List.flatMap_map, List.filter_flatMap]

theorem without_nil (f : Func) : f.without [] = f := by
  simp [without]

theorem without_without (f : Func) (gone others : List InstId) :
    (f.without gone).without others = f.without (gone ++ others) := by
  simp [without, Function.comp_def, List.filter_filter, Bool.and_comm]

theorem without_perm (perm : is.Perm js) : f.without is = f.without js := by
  unfold without
  simp only [perm.mem_iff]

theorem remove_eq_without (uses : ∀ v, ∀ j ∈ f.graph.users v, v ∈ f.graph.operands j) (i : InstId) :
    f.remove i = f.without [i] := by
  have graph : f.graph.untrack i = (f.without [i]).graph := by
    have users : (f.graph.untrack i).userLists = (f.without [i]).graph.userLists := by
      apply Graph.userLists_ext
      · simp [(Graph.untrack_eq f.graph i).2, without]
      · intro v
        simp [Graph.users_untrack uses]
    rw [(Graph.untrack_eq f.graph i).1, users]
    rfl
  have listing : f.listing.remove i = (f.without [i]).listing := by
    apply congrArg Listing.mk
    apply (Listing.blocks_remove f.listing i).trans
    simp
  rw [remove, graph, listing]
  rfl

theorem isDead_without : (f.without gone).isDead i ↔
    ∃ inst v, f.graph.inst? i = some inst ∧ inst.isPure ∧ f.graph.result? i = some v ∧
      ∀ j ∈ f.graph.users v, j ∈ gone := by
  simp [isDead_iff, List.filter_eq_nil_iff]

/-! ### The least set -/

/-- Listed code that only computes what is of no use once other code is gone. -/
def Useless (f : Func) (gone : Set InstId) : Set InstId :=
  {i | i ∈ f.code ∧ ∃ inst v, f.graph.inst? i = some inst ∧ inst.isPure ∧ f.graph.result? i = some v ∧
    ∀ j ∈ f.graph.users v, j ∈ gone}

theorem useless_mono {more : Set InstId} (subset : closed ⊆ more) : f.Useless closed ⊆ f.Useless more := by
  rintro i ⟨listed, inst, v, found, isPure, result, unused⟩
  exact ⟨listed, inst, v, found, isPure, result, fun j user => subset (unused j user)⟩

theorem dead_without_iff : i ∈ (f.without gone).code ∧ (f.without gone).isDead i ↔
    i ∈ f.Useless {j | j ∈ gone} ∧ i ∉ gone := by
  rw [isDead_without, code_without, List.mem_filter, decide_eq_true_eq, and_right_comm]
  rfl

/-- The least set has nothing but useless code: without the rest it is closed already. -/
theorem subset_useless (least : IsLeast {D | D ⊆ {i | i ∈ f.code} ∧ f.Useless D ⊆ D} closed) :
    closed ⊆ f.Useless closed := by
  apply least.2
  exact ⟨fun i useless => useless.1, useless_mono least.1.2⟩

/-- Dead code is taken out, one instruction at a time. The last one that went is named first. -/
inductive Sweeps (f : Func) : List InstId → Func → Prop
  | start : Sweeps f [] f
  | next {gone : List InstId} {g : Func} {i : InstId} (before : Sweeps f gone g) (listed : i ∈ g.code)
      (dead : g.isDead i) : Sweeps f (i :: gone) (g.remove i)

section

variable (uses : ∀ v, ∀ j ∈ f.graph.users v, v ∈ f.graph.operands j)

include uses

theorem remove_without (gone : List InstId) (i : InstId) : (f.without gone).remove i = f.without (i :: gone) := by
  have still : ∀ v, ∀ j ∈ (f.without gone).graph.users v, v ∈ (f.without gone).graph.operands j := by
    intro v j user
    rw [users_without] at user
    exact uses v j (List.mem_of_mem_filter user)
  rw [remove_eq_without still, without_without]
  apply without_perm
  exact List.perm_append_comm

theorem Sweeps.eq_without (sweeps : f.Sweeps gone g) : g = f.without gone := by
  induction sweeps with
  | start => exact f.without_nil.symm
  | next before listed dead ih => rw [ih, remove_without uses]

/-- What goes is useless because of what went before it. -/
theorem Sweeps.useless_of_next (before : f.Sweeps gone g) (listed : i ∈ g.code) (dead : g.isDead i) :
    i ∈ f.Useless {j | j ∈ gone} ∧ i ∉ gone := by
  rw [before.eq_without uses] at listed dead
  exact dead_without_iff.mp ⟨listed, dead⟩

theorem Sweeps.nodup (sweeps : f.Sweeps gone g) : gone.Nodup := by
  induction sweeps with
  | start => exact .nil
  | next before listed dead ih => exact ih.cons (before.useless_of_next uses listed dead).2

theorem Sweeps.listed (sweeps : f.Sweeps gone g) : ∀ i ∈ gone, i ∈ f.code := by
  induction sweeps with
  | start => exact nofun
  | next before listed dead ih =>
    exact List.forall_mem_cons.mpr ⟨(before.useless_of_next uses listed dead).1.1, ih⟩

-- Whatever is closed holds what goes first, and so all that becomes useless by it.
theorem Sweeps.within (sweeps : f.Sweeps gone g) (within : f.Useless closed ⊆ closed) : ∀ i ∈ gone, i ∈ closed := by
  induction sweeps with
  | start => exact nofun
  | next before listed dead ih =>
    have useless := (before.useless_of_next uses listed dead).1
    exact List.forall_mem_cons.mpr ⟨within (useless_mono ih useless), ih⟩

theorem Sweeps.isLeast (sweeps : f.Sweeps gone g) (alive : ∀ i ∈ g.code, g.isDead i = false) :
    IsLeast {D | D ⊆ {i | i ∈ f.code} ∧ f.Useless D ⊆ D} {i | i ∈ gone} := by
  refine ⟨⟨sweeps.listed uses, ?_⟩, fun D within => sweeps.within uses within.2⟩
  intro i useless
  -- What is useless and still listed would be dead.
  by_contra stays
  rw [sweeps.eq_without uses] at alive
  obtain ⟨listed, dead⟩ := dead_without_iff.mpr ⟨useless, stays⟩
  simp [alive i listed] at dead

/-- In whichever order dead code is taken out, the same code is left. -/
theorem Sweeps.unique (sweeps : f.Sweeps gone g) (alive : ∀ i ∈ g.code, g.isDead i = false)
    (again : f.Sweeps others h) (none_ : ∀ i ∈ h.code, h.isDead i = false) : others.Perm gone ∧ h = g := by
  have same := (sweeps.isLeast uses alive).unique (again.isLeast uses none_)
  have perm : others.Perm gone := by
    apply (List.perm_ext_iff_of_nodup (again.nodup uses) (sweeps.nodup uses)).mpr
    intro i
    exact (Set.ext_iff.mp same i).symm
  refine ⟨perm, ?_⟩
  rw [sweeps.eq_without uses, again.eq_without uses]
  exact without_perm perm

end

/-! ### The worklist -/

theorem removeDeadFrom_sweeps (f g : Func) (work : List InstId) :
    ∃ more, more.length = (g.removeDeadFrom work).2 ∧
      ∀ gone, f.Sweeps gone g → f.Sweeps (more ++ gone) (g.removeDeadFrom work).1 := by
  induction g, work using removeDeadFrom.induct with
  | case1 g =>
    rw [removeDeadFrom]
    exact ⟨[], rfl, fun gone before => before⟩
  | case2 g i rest listed dead operands _ _ _ ih =>
    rw [removeDeadFrom, dif_pos listed, if_pos dead]
    obtain ⟨more, count, later⟩ := ih
    refine ⟨more ++ [i], ?_, fun gone before => ?_⟩
    · rw [List.length_append, count]
      rfl
    · rw [List.append_assoc]
      exact later (i :: gone) (before.next listed dead)
  | case3 g i rest listed alive ih =>
    rw [removeDeadFrom, dif_pos listed, if_neg alive]
    exact ih
  | case4 g i rest absent ih =>
    rw [removeDeadFrom, dif_neg absent]
    exact ih

theorem removeDeadFrom_eq (valid : f.Valid) (work : List InstId) (named : ∀ i ∈ f.code, i ∈ work) :
    ∃ gone, f.Sweeps gone (f.without gone) ∧ f.removeDeadFrom work = (f.without gone, gone.length) ∧
      ∀ i ∈ (f.without gone).code, (f.without gone).isDead i = false := by
  have uses := valid.graph.uses
  have alive := removeDeadFrom_alive f work valid fun i listed _ => named i listed
  obtain ⟨gone, count, later⟩ := removeDeadFrom_sweeps f f work
  have sweeps := later [] .start
  rw [List.append_nil] at sweeps
  have left := sweeps.eq_without uses
  rw [left] at sweeps alive
  exact ⟨gone, sweeps, Prod.ext left count.symm, alive⟩

/-- Removing dead code takes out the least set of instructions that is closed under being of no use. Users stay exact,
what goes has no effect and is not used by what stays, and no such code is left. Any other order leaves the same. -/
theorem removeDead_removes_least (valid : f.Valid) (listed : f.UsersListed) :
    ∃ gone : List InstId, gone.Nodup ∧
      IsLeast {D | D ⊆ {i | i ∈ f.code} ∧ f.Useless D ⊆ D} {i | i ∈ gone} ∧
      f.removeDead = (f.without gone, gone.length) ∧
      (∀ v i, i ∈ (f.without gone).graph.users v ↔
        i ∈ (f.without gone).code ∧ v ∈ (f.without gone).graph.operands i) ∧
      (∀ i ∈ gone, ∃ inst v, f.graph.inst? i = some inst ∧ inst.isPure ∧ f.graph.result? i = some v ∧
        ∀ j ∈ (f.without gone).code, v ∉ f.graph.operands j) ∧
      (∀ i ∈ (f.without gone).code, ∀ inst v, f.graph.inst? i = some inst → inst.isPure →
        f.graph.result? i = some v → ∃ j ∈ (f.without gone).code, v ∈ f.graph.operands j) ∧
      (∀ work, (∀ i ∈ f.code, i ∈ work) → f.removeDeadFrom work = f.removeDead) ∧
      ∀ others g, f.Sweeps others g → (∀ i ∈ g.code, g.isDead i = false) →
        others.Perm gone ∧ g = f.without gone := by
  have uses := valid.graph.uses
  obtain ⟨gone, sweeps, removed, alive⟩ :=
    removeDeadFrom_eq valid f.code.reverse fun i inside => List.mem_reverse.mpr inside
  have least := sweeps.isLeast uses alive
  have exact_ : ∀ v i, i ∈ (f.without gone).graph.users v ↔
      i ∈ (f.without gone).code ∧ v ∈ (f.without gone).graph.operands i := by
    intro v i
    rw [users_without, code_without, operands_without, List.mem_filter, List.mem_filter, and_right_comm]
    apply and_congr_left
    intro _
    exact ⟨fun user => ⟨listed v i user, uses v i user⟩, fun ⟨inside, operand⟩ => valid.used i inside v operand⟩
  refine ⟨gone, sweeps.nodup uses, least, removed, exact_, ?dropped, ?kept, ?orders, fun others g again none_ =>
    sweeps.unique uses alive again none_⟩
  case dropped =>
    intro i member
    obtain ⟨-, inst, v, found, isPure, result, unused⟩ := subset_useless least member
    refine ⟨inst, v, found, isPure, result, ?_⟩
    intro j inside operand
    rw [code_without, List.mem_filter, decide_eq_true_eq] at inside
    exact inside.2 (unused j (valid.used j inside.1 v operand))
  -- A pure instruction left without users would be dead, and the sweep stops only when none is.
  case kept =>
    intro i inside inst v found isPure result
    by_contra unused
    have dead : (f.without gone).isDead i := by
      refine isDead_iff.mpr ⟨inst, v, found, isPure, result, ?_⟩
      apply List.eq_nil_iff_forall_not_mem.mpr
      intro j user
      exact unused ⟨j, (exact_ v j).mp user⟩
    simp [alive i inside] at dead
  case orders =>
    intro work named
    obtain ⟨others, again, result, none_⟩ := removeDeadFrom_eq valid work named
    obtain ⟨perm, same⟩ := sweeps.unique uses alive again none_
    rw [result, removeDead, removed, same, perm.length_eq]

/-- Two sums of an address that nothing uses, and a loop that only counts for itself. -/
def countedLoop : Func :=
  let int := Ty.int .i64
  let f := (declare ⟨"count", .exported, [.ptr int], .unit, none, false, false⟩ []).addBlock.addBlock
  let (f, a) := f.insert (.cast .ptrToInt ⟨0⟩ int) int (.bottom ⟨0⟩)
  let (f, b) := f.insert (.binary .add a a) int (.bottom ⟨0⟩)
  let (f, _) := f.insert (.binary .sub b a) int (.bottom ⟨0⟩)
  let (f, _) := f.insertInst (.jump ⟨1⟩) (.bottom ⟨0⟩)
  let (f, start) := f.addImm (.ofInt .i64 0)
  let (f, count) := f.insert (.phi [(start, ⟨0⟩)] int) int (.bottom ⟨1⟩)
  let (f, next) := f.insert (.binary .add count start) int (.bottom ⟨1⟩)
  let (f, _) := f.insertInst (.jump ⟨1⟩) (.bottom ⟨1⟩)
  f.updateGraph (·.addIncoming ⟨4⟩ next ⟨1⟩)

theorem removeDead_countedLoop : countedLoop.Valid ∧ countedLoop.UsersListed ∧
    countedLoop.removeDead = (countedLoop.without [⟨0⟩, ⟨1⟩, ⟨2⟩], 3) ∧
    (countedLoop.without [⟨0⟩, ⟨1⟩, ⟨2⟩]).code = [⟨3⟩, ⟨4⟩, ⟨5⟩, ⟨6⟩] := by
  have valid : countedLoop.Valid := by decide +kernel
  have listed : countedLoop.UsersListed := by decide +kernel
  obtain ⟨gone, -, -, removed, -, -, -, -, orders⟩ := removeDead_removes_least valid listed
  have sums : countedLoop.Sweeps [⟨1⟩, ⟨2⟩] ((countedLoop.remove ⟨2⟩).remove ⟨1⟩) :=
    (Sweeps.start.next (by decide +kernel) (by decide +kernel)).next (by decide +kernel) (by decide +kernel)
  have all := sums.next (i := ⟨0⟩) (by decide +kernel) (by decide +kernel)
  obtain ⟨perm, same⟩ := orders _ _ all (by decide +kernel)
  refine ⟨valid, listed, ?_, by decide +kernel⟩
  rw [removed, ← perm.length_eq, ← without_perm perm]
  rfl

end Func

end VarRecovery
