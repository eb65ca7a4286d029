import Mathlib.Data.List.Induction
import VarRecovery.Proofs.Placement
import VarRecovery.Proofs.Region.Covering

/-!
Which of the entities placed at an address is there in the end. Only what was placed at that address counts, and
functions and variables only in their own order: the last function is there, or without one the first of the largest
variables.
-/

set_option autoImplicit false

namespace VarRecovery.EntityTable

/-- An entity that is placed at an address of a program; a variable has a size. -/
inductive Insertion where
  | func (m : Module) (address : Nat) (f : FuncId)
  | var (m : Module) (address : Nat) (id : GlobalId) (size : Nat)

def place (t : EntityTable) : Insertion → EntityTable
  | .func m address f => (t.insertFunc m address f).1
  | .var m address id size => (t.insertVar m address id size).1

/-- The table in which entities have been placed one after the other. -/
def ofInsertions (calls : List Insertion) : EntityTable :=
  calls.foldl place .empty

/-- The functions placed at an address. -/
def funcsAt (a : Nat) (calls : List Insertion) : List FuncId :=
  calls.filterMap fun
    | .func _ address f => if address = a then some f else none
    | .var .. => none

/-- The variables placed at an address, with their sizes. -/
def varsAt (a : Nat) (calls : List Insertion) : List (GlobalId × Nat) :=
  calls.filterMap fun
    | .func .. => none
    | .var _ address id size => if address = a then some (id, size) else none

/-- A variable has one size, wherever it is placed. -/
def SizesAgree (calls : List Insertion) : Prop :=
  ∃ bytes : GlobalId → Nat, ∀ a, ∀ v ∈ varsAt a calls, v.2 = bytes v.1

/-- What is at an address where functions and variables were placed, each in this order. -/
inductive Prevails : List FuncId → List (GlobalId × Nat) → Option (Entity × Nat) → Prop
  | nothing : Prevails [] [] none
  | lastFunc {funcs : List FuncId} {vars : List (GlobalId × Nat)} {f : FuncId} {size : Nat} :
      funcs.getLast? = some f → Prevails funcs vars (some (.func f, size))
  | largestVar {before after : List (GlobalId × Nat)} {id : GlobalId} {size : Nat} :
      (∀ v ∈ before, v.2 < size) → (∀ v ∈ after, v.2 ≤ size) →
      Prevails [] (before ++ (id, size) :: after) (some (.var id, size))

variable {t : EntityTable} {a size : Nat} {id : GlobalId} {calls other : List Insertion} {funcs : List FuncId}
  {vars : List (GlobalId × Nat)} {held held' : Option (Entity × Nat)}

theorem funcsAt_append (a : Nat) (calls other : List Insertion) :
    funcsAt a (calls ++ other) = funcsAt a calls ++ funcsAt a other :=
  List.filterMap_append

theorem varsAt_append (a : Nat) (calls other : List Insertion) :
    varsAt a (calls ++ other) = varsAt a calls ++ varsAt a other :=
  List.filterMap_append

theorem ofInsertions_concat (calls : List Insertion) (call : Insertion) :
    ofInsertions (calls ++ [call]) = (ofInsertions calls).place call := by
  rw [ofInsertions, List.foldl_append]
  rfl

theorem SizesAgree.front (agree : SizesAgree (calls ++ other)) : SizesAgree calls := by
  obtain ⟨bytes, all⟩ := agree
  exact ⟨bytes, fun a v member => all a v (varsAt_append a calls other ▸ List.mem_append_left _ member)⟩

/-! ### One more entity -/

/-- A variable that is there already takes its own place, as its size is the one it has. -/
theorem Prevails.place_var (prevails : Prevails funcs vars held) (same : ∀ v ∈ vars, v.1 = id → v.2 = size) :
    Prevails funcs (vars ++ [(id, size)]) (some (heldAfter id size held)) := by
  cases prevails with
  | nothing => exact @Prevails.largestVar [] [] id size nofun nofun
  | lastFunc last => exact .lastFunc last
  | @largestVar before after old oldSize smaller noLarger =>
    simp only [heldAfter]
    split
    next stays =>
      rw [List.append_assoc, List.cons_append]
      refine .largestVar smaller fun v member => ?_
      rcases List.mem_append.mp member with behind | last
      · exact noLarger v behind
      · cases List.mem_singleton.mp last
        rcases stays with rfl | le
        · exact Nat.le_of_eq (same (old, oldSize) (by simp) rfl).symm
        · exact le
    next replaced =>
      have larger : oldSize < size := Nat.lt_of_not_le fun le => replaced (.inr le)
      refine @Prevails.largestVar _ [] id size (fun v member => ?_) nofun
      rcases List.mem_append.mp member with front | rest
      · exact Nat.lt_trans (smaller v front) larger
      · rcases List.mem_cons.mp rest with rfl | behind
        · exact larger
        · exact Nat.lt_of_le_of_lt (noLarger v behind) larger

theorem prevails_ofInsertions (agree : SizesAgree calls) (a : Nat) :
    Prevails (funcsAt a calls) (varsAt a calls) ((ofInsertions calls).entities.find? a) := by
  -- The last call decides over what the calls before it have left at the address.
  induction calls using List.reverseRecOn with
  | nil => exact .nothing
  | append_singleton calls call ih =>
    have before := ih agree.front
    obtain ⟨bytes, all⟩ := agree
    rw [ofInsertions_concat, funcsAt_append, varsAt_append]
    cases call with
    | func m address f =>
      simp only [place, insertFunc, AddressMap.find?_insert]
      by_cases here : address = a
      · subst here
        simpa [funcsAt, varsAt] using Prevails.lastFunc (by simp)
      · simpa [funcsAt, varsAt, here, Ne.symm here] using before
    | var m address id size =>
      simp only [place, find?_insertVar]
      by_cases here : address = a
      · subst here
        have added : varsAt address [.var m address id size] = [(id, size)] := by simp [varsAt]
        have same (v : GlobalId × Nat) (member : v ∈ varsAt address calls) (alike : v.1 = id) : v.2 = size := by
          have one := all address v (varsAt_append .. ▸ List.mem_append_left _ member)
          have two := all address (id, size) (varsAt_append .. ▸ List.mem_append_right _ (by simp [added]))
          rw [one, alike]
          exact two.symm
        rw [if_pos rfl, added]
        simpa [funcsAt] using before.place_var same
      · simpa [funcsAt, varsAt, here, Ne.symm here] using before

/-! ### What the calls decide -/

/-- Of several largest variables the first is meant, so there is only one. -/
theorem split_at_largest {before after before' after' : List (GlobalId × Nat)} {v w : GlobalId × Nat}
    (same : before ++ v :: after = before' ++ w :: after') (smaller : ∀ u ∈ before, u.2 < v.2)
    (noLarger : ∀ u ∈ after, u.2 ≤ v.2) (smaller' : ∀ u ∈ before', u.2 < w.2) (noLarger' : ∀ u ∈ after', u.2 ≤ w.2) :
    v = w := by
  -- If one stood before the other, it would be smaller and at once no smaller.
  rcases List.append_eq_append_iff.mp same with ⟨between, rfl, rest⟩ | ⟨between, rfl, rest⟩
  · cases between with
    | nil => exact (List.cons.inj rest).1
    | cons u between =>
      obtain ⟨rfl, rfl⟩ := List.cons.inj rest
      have := smaller' v (by simp)
      have := noLarger w (by simp)
      omega
  · cases between with
    | nil => exact (List.cons.inj rest).1.symm
    | cons u between =>
      obtain ⟨rfl, rfl⟩ := List.cons.inj rest
      have := smaller w (by simp)
      have := noLarger' v (by simp)
      omega

theorem Prevails.unique (one : Prevails funcs vars held) (two : Prevails funcs vars held') :
    held.map Prod.fst = held'.map Prod.fst := by
  cases one with
  | nothing =>
    generalize same : ([] : List (GlobalId × Nat)) = vars at two
    cases two with
    | nothing => rfl
    | lastFunc last => cases last
    | largestVar => simp at same
  | lastFunc last =>
    cases two with
    | nothing => cases last
    | lastFunc last' => rw [Option.some.inj (last.symm.trans last')]; rfl
    | largestVar => cases last
  | @largestVar before after id size smaller noLarger =>
    generalize same : before ++ (id, size) :: after = vars at two
    cases two with
    | nothing => simp at same
    | lastFunc last => cases last
    | largestVar smaller' noLarger' =>
      cases split_at_largest same smaller noLarger smaller' noLarger'
      rfl

theorem Prevails.mem_vars (prevails : Prevails funcs vars (some (.var id, size))) : (id, size) ∈ vars := by
  cases prevails with
  | largestVar => simp

theorem SizesAgree.congr (agree : SizesAgree calls) (same : ∀ a, varsAt a other = varsAt a calls) :
    SizesAgree other := by
  obtain ⟨bytes, all⟩ := agree
  exact ⟨bytes, fun a v member => all a v (same a ▸ member)⟩

/-- A variable is told to be there exactly if it is. -/
theorem insertVar_placed_iff (t : EntityTable) (m : Module) (a : Nat) (id : GlobalId) (size : Nat) :
    (t.insertVar m a id size).2.1 = true ↔ (t.insertVar m a id size).1.get? a = some (.var id) := by
  unfold insertVar
  dsimp only
  split
  next => simp [get?_putVar]
  next found => simp [get?, found]
  next found =>
    split
    next here => simp [get?, found, here]
    next differ =>
      split
      next => simp [get?, found, differ]
      next => simp [get?_putVar]

theorem maxVariableSize_insertVar (t : EntityTable) (m : Module) (a : Nat) (id : GlobalId) (size : Nat) :
    t.maxVariableSize ≤ (t.insertVar m a id size).1.maxVariableSize := by
  unfold insertVar
  dsimp only
  split
  next => exact Nat.le_max_left _ _
  next => exact Nat.le_refl _
  next =>
    split
    next => exact Nat.le_refl _
    next =>
      split
      next => exact Nat.le_refl _
      next => exact Nat.le_max_left _ _

theorem maxVariableSize_mono (front : calls <+: other) :
    (ofInsertions calls).maxVariableSize ≤ (ofInsertions other).maxVariableSize := by
  obtain ⟨back, rfl⟩ := front
  induction back using List.reverseRecOn with
  | nil => rw [List.append_nil]
  | append_singleton back call ih =>
    rw [← List.append_assoc, ofInsertions_concat]
    cases call with
    | func m address f => exact ih
    | var m address id size => exact Nat.le_trans ih (maxVariableSize_insertVar _ m address id size)

theorem reached_ofInsertions (calls : List Insertion) : (ofInsertions calls).Reached := by
  induction calls using List.reverseRecOn with
  | nil => exact .empty
  | append_singleton calls call ih =>
    rw [ofInsertions_concat]
    cases call with
    | func m address f => exact ih.insertFunc m address f
    | var m address id size => exact ih.insertVar m address id size

/-- In the end the last function is at an address or, without one, the first of the largest variables, however the calls
for other addresses and those for functions and variables are mixed. A variable is told to be placed exactly if it is at
the address then, and no variable that was ever placed is larger than the table takes them to be. -/
theorem ofInsertions_prevails (agree : SizesAgree calls) :
    (∀ a, Prevails (funcsAt a calls) (varsAt a calls) ((ofInsertions calls).entities.find? a)) ∧
    (∀ other, (∀ a, funcsAt a other = funcsAt a calls ∧ varsAt a other = varsAt a calls) →
      ∀ a, (ofInsertions other).get? a = (ofInsertions calls).get? a) ∧
    (∀ front m a id size, front ++ [.var m a id size] <+: calls →
      (((ofInsertions front).insertVar m a id size).2.1 = true ↔
        (ofInsertions (front ++ [.var m a id size])).get? a = some (.var id)) ∧
      (((ofInsertions front).insertVar m a id size).2.1 = true → size ≤ (ofInsertions calls).maxVariableSize)) ∧
    ∀ a id size, (ofInsertions calls).entities.find? a = some (.var id, size) →
      size ≤ (ofInsertions calls).maxVariableSize := by
  refine ⟨prevails_ofInsertions agree, fun other same a => ?_, fun front m a id size part => ?_,
    fun a id size found => (reached_ofInsertions calls).bounded a size ⟨id, found⟩⟩
  · have mixed := prevails_ofInsertions (agree.congr fun b => (same b).2) a
    rw [(same a).1, (same a).2] at mixed
    exact mixed.unique (prevails_ofInsertions agree a)
  · have told := insertVar_placed_iff (ofInsertions front) m a id size
    have after : ofInsertions (front ++ [.var m a id size]) = ((ofInsertions front).insertVar m a id size).1 :=
      ofInsertions_concat _ _
    refine ⟨after ▸ told, fun placed => ?_⟩
    obtain ⟨kept, there⟩ := get?_eq_some.mp (after ▸ told.mp placed)
    obtain ⟨back, rfl⟩ := part
    obtain ⟨bytes, all⟩ := agree.front
    -- The variable may have been there before, but then with the same size.
    have recorded : kept = bytes id := all a (id, kept) (there ▸ prevails_ofInsertions agree.front a).mem_vars
    have given : size = bytes id := all a (id, size) (varsAt_append .. ▸ List.mem_append_right _ (by simp [varsAt]))
    obtain rfl : kept = size := recorded.trans given.symm
    have bounded := (reached_ofInsertions _).bounded a kept ⟨id, there⟩
    exact Nat.le_trans bounded (maxVariableSize_mono (List.prefix_append _ _))

/-- Code at the address of an integer, which also lies in front of an array and behind it. -/
def mixedInsertions : List Insertion :=
  [.var .nestedVariables 4096 ⟨1⟩ 4, .var .nestedVariables 4104 ⟨1⟩ 4, .var .nestedVariables 4096 ⟨0⟩ 32,
    .func .nestedVariables 4104 ⟨0⟩, .var .nestedVariables 4096 ⟨1⟩ 4, .var .nestedVariables 4128 ⟨1⟩ 4]

theorem mixedInsertions_prevail : SizesAgree mixedInsertions ∧
    (ofInsertions mixedInsertions).get? 4096 = some (.var ⟨0⟩) ∧
    (ofInsertions mixedInsertions).get? 4104 = some (.func ⟨0⟩) ∧
    (ofInsertions mixedInsertions).get? 4128 = some (.var ⟨1⟩) ∧
    Prevails [] [(⟨1⟩, 4), (⟨0⟩, 32), (⟨1⟩, 4)] (some (.var ⟨0⟩, 32)) ∧
    32 ≤ (ofInsertions mixedInsertions).maxVariableSize := by
  have agree : SizesAgree mixedInsertions := by
    refine ⟨fun id => if id = ⟨0⟩ then 32 else 4, fun a v member => ?_⟩
    simp only [mixedInsertions, varsAt, List.mem_filterMap, List.mem_cons, List.not_mem_nil, or_false] at member
    obtain ⟨call, rfl | rfl | rfl | rfl | rfl | rfl, here⟩ := member <;> simp_all [eq_comm]
  have found : (ofInsertions mixedInsertions).entities.find? 4096 = some (.var ⟨0⟩, 32) := by decide +kernel
  obtain ⟨prevails, -, -, bounded⟩ := ofInsertions_prevails agree
  exact ⟨agree, by decide +kernel, by decide +kernel, by decide +kernel, found ▸ prevails 4096, bounded _ _ _ found⟩

end VarRecovery.EntityTable
