import Mathlib
import VarRecovery.Proofs.Pointer.Steps

/-!
Simplification changes no more than there are sums and phis of integers to take out. Then a round changes
nothing, and what is left is simplified for good.
-/

set_option autoImplicit false

namespace VarRecovery

namespace Module

variable {closed : Prop} {m n : Module}

/-- How much there is to fold and to sink at most: all sums, and all phis of integers as wide as a
pointer. -/
def rewritable (m : Module) : Nat :=
  (m.funcs.toList.map fun f => f.additions.length + (f.intPhis m.layout.pointerInt).length).sum

theorem sum_modify {α : Type} {p : α → Nat} {xs : List α} {i : Nat} {x : α} (found : xs[i]? = some x) (y : α) :
    ((xs.modify i fun _ => y).map p).sum + p x = (xs.map p).sum + p y := by
  induction xs generalizing i with
  | nil => cases found
  | cons head tail ih =>
    cases i with
    | zero =>
      cases found
      simp
      omega
    | succ i =>
      have rest := ih (i := i) found
      simp only [List.modify_succ_cons, List.map_cons, List.sum_cons]
      omega

theorem rewritable_updateFunc {id : FuncId} {f g : Func} (found : m.func? id = some f) {changes : Nat}
    (less : (g.candidates m.layout.pointerInt).length + changes ≤ (f.candidates m.layout.pointerInt).length) :
    (m.updateFunc id fun _ => g).rewritable + changes ≤ m.rewritable := by
  have total (k : Module) : k.rewritable =
      (k.funcs.toList.map fun f => (f.candidates k.layout.pointerInt).length).sum := by
    simp only [rewritable, Func.length_candidates]
  have at_ : m.funcs.toList[id.index]? = some f := by
    rw [Array.getElem?_toList]
    exact found
  have sums := sum_modify (p := fun f : Func => (f.candidates m.layout.pointerInt).length) at_ g
  rw [total, total]
  simp only [updateFunc, Array.toList_modify]
  change (((m.funcs.toList.modify id.index fun _ => g).map fun f =>
    (f.candidates m.layout.pointerInt).length).sum) + changes ≤ _
  omega

theorem isPtr_pointerInt (L : DataLayout) : L.pointerInt.isPtr = false := rfl

theorem Step.rewritable {change : Nat} (step : Step True True closed change m n) (sound : m.Sound True True closed) :
    n.rewritable + change ≤ m.rewritable := by
  cases step with
  | @rewrite _ id f g phis i found edits listed candidate =>
    refine rewritable_updateFunc found ?_
    have less := edits.length_candidates (sound _ _ found) (isPtr_pointerInt m.layout)
    simpa [listed, candidate] using less
  | tidy found edits =>
    refine rewritable_updateFunc found ?_
    exact Nat.le_trans (Nat.le_add_right _ _)
      (edits.length_candidates (sound _ _ found) (isPtr_pointerInt m.layout))

theorem Steps.rewritable {changes : Nat} (steps : Steps True True closed changes m n)
    (sound : m.Sound True True closed) : n.rewritable + changes ≤ m.rewritable := by
  induction steps with
  | refl => exact Nat.le_refl _
  | step before last ih =>
    have first := ih sound
    have second := last.rewritable (before.sound sound)
    omega

end Module

namespace Simplification

variable {closed : Prop} {r s : Simplification}

/-! ### Rounds without changes -/

theorem Leads.changes_le {typed fed : Prop} (leads : Leads typed fed closed r s) : r.changes ≤ s.changes := by
  obtain ⟨changes, counted, -⟩ := leads
  omega

section Parts

variable {α : Type} {part : Simplification → α → Simplification}

theorem foldl_grows (holds : Simplification → Prop)
    (grows : ∀ r x, holds r → holds (part r x) ∧ r.changes ≤ (part r x).changes) (xs : List α)
    (here : holds r) : r.changes ≤ (xs.foldl part r).changes := by
  induction xs generalizing r with
  | nil => exact Nat.le_refl _
  | cons x xs ih =>
    obtain ⟨next, first⟩ := grows r x here
    exact Nat.le_trans first (ih next)

theorem foldl_still (holds : Simplification → Prop)
    (grows : ∀ r x, holds r → holds (part r x) ∧ r.changes ≤ (part r x).changes)
    (still : ∀ r x, holds r → (part r x).changes ≤ r.changes → part r x = r) {xs : List α} (here : holds r)
    (same : (xs.foldl part r).changes ≤ r.changes) : xs.foldl part r = r ∧ ∀ x ∈ xs, part r x = r := by
  induction xs with
  | nil => exact ⟨rfl, fun _ member => nomatch member⟩
  | cons x xs ih =>
    obtain ⟨next, -⟩ := grows r x here
    -- The rest counts no less than the first part, so that one did nothing, and the rest starts anew.
    have first : part r x = r := still r x here (Nat.le_trans (foldl_grows holds grows xs next) same)
    rw [List.foldl_cons, first] at same ⊢
    obtain ⟨rest, others⟩ := ih same
    exact ⟨rest, List.forall_mem_cons.mpr ⟨first, others⟩⟩

end Parts

theorem fold_cases (ptr : FuncId × ValueId) (r : Simplification) (d : Displacement) :
    (fold ptr r d = r ∧ ∀ f, r.module.func? ptr.1 = some f → f.foldSum r.module.layout ptr.2 d = none) ∨
      (fold ptr r d).changes = r.changes + 1 := by
  unfold fold
  split
  next absent => exact .inl ⟨rfl, by simp [absent]⟩
  next f found =>
    split
    next none_ =>
      refine .inl ⟨rfl, fun g same => ?_⟩
      cases found.symm.trans same
      exact none_
    next => exact .inr rfl

theorem fold_grows (ptr : FuncId × ValueId) (r : Simplification) (d : Displacement) :
    r.changes ≤ (fold ptr r d).changes := by
  rcases fold_cases ptr r d with ⟨same, -⟩ | one
  · exact Nat.le_of_eq (congrArg changes same.symm)
  · omega

theorem fold_still {ptr : FuncId × ValueId} {d : Displacement} (same : (fold ptr r d).changes ≤ r.changes) :
    fold ptr r d = r := by
  rcases fold_cases ptr r d with ⟨same, -⟩ | one
  · exact same
  · omega

theorem foldAll_grows (r : Simplification) (ptr : FuncId × ValueId) : r.changes ≤ (r.foldAll ptr).changes := by
  unfold foldAll
  split
  next => exact Nat.le_refl _
  next => exact foldl_grows (fun _ => True) (fun r d _ => ⟨trivial, fold_grows ptr r d⟩) _ trivial

def Folded (m : Module) (ptr : FuncId × ValueId) : Prop :=
  ∀ f, m.func? ptr.1 = some f → ∀ d ∈ f.displacements ptr.2, f.foldSum m.layout ptr.2 d = none

theorem foldAll_still {ptr : FuncId × ValueId} (same : (r.foldAll ptr).changes ≤ r.changes) :
    r.foldAll ptr = r ∧ Folded r.module ptr := by
  unfold foldAll at *
  split at same
  next absent => exact ⟨rfl, by simp [Folded, absent]⟩
  next f found =>
    obtain ⟨whole, each⟩ := foldl_still (fun _ => True) (fun r d _ => ⟨trivial, fold_grows ptr r d⟩)
      (fun r d _ => fold_still) trivial same
    refine ⟨whole, fun g here d member => ?_⟩
    cases found.symm.trans here
    rcases fold_cases ptr r d with ⟨-, none_⟩ | one
    · exact none_ f found
    · rw [each d member] at one
      omega

theorem foldAll_of_folded {ptr : FuncId × ValueId} (folded : Folded r.module ptr) : r.foldAll ptr = r := by
  unfold foldAll
  split
  next => rfl
  next f found =>
    have none_ := folded f found
    generalize f.displacements ptr.2 = ds at none_
    induction ds with
    | nil => rfl
    | cons d ds ih =>
      have first : fold ptr r d = r := by simp [fold, found, none_ d List.mem_cons_self]
      rw [List.foldl_cons, first]
      exact ih fun e member => none_ e (List.mem_cons_of_mem _ member)

theorem foldFrom_grows (n next : Nat) (r : Simplification) : r.changes ≤ (foldFrom n next r).changes :=
  foldFrom_induction (P := fun s => r.changes ≤ s.changes)
    (fun s ptr before => Nat.le_trans before (foldAll_grows s ptr)) n next (Nat.le_refl _)

theorem foldFrom_still {n next : Nat} (same : (foldFrom n next r).changes ≤ r.changes) :
    foldFrom n next r = r ∧ ∀ k < n, ∀ ptr, r.frontier.pointers[next + k]? = some ptr →
      Folded r.module ptr := by
  induction n generalizing next with
  | zero => exact ⟨rfl, fun k outside => absurd outside (Nat.not_lt_zero k)⟩
  | succ n ih =>
    unfold foldFrom at same ⊢
    split at same
    next absent =>
      refine ⟨rfl, fun k _ ptr found => ?_⟩
      have outside := List.getElem?_eq_none_iff.mp absent
      rw [List.getElem?_eq_none (by omega)] at found
      cases found
    next ptr here =>
      obtain ⟨first, folded⟩ := foldAll_still (Nat.le_trans (foldFrom_grows n (next + 1) _) same)
      rw [first] at same ⊢
      obtain ⟨rest, others⟩ := ih same
      refine ⟨rest, fun k inside other found => ?_⟩
      cases k with
      | zero =>
        rw [Nat.add_zero, here] at found
        cases found
        exact folded
      | succ k => exact others k (by omega) other (by rwa [Nat.add_right_comm])

theorem foldFrom_of_folded (folded : ∀ ptr ∈ r.frontier.pointers, Folded r.module ptr) (n next : Nat) :
    foldFrom n next r = r := by
  induction n generalizing next with
  | zero => rfl
  | succ n ih =>
    unfold foldFrom
    split
    next => rfl
    next ptr found => rw [foldAll_of_folded (folded ptr (List.mem_of_getElem? found)), ih]

theorem foldFrontier_still (same : r.foldFrontier.changes ≤ r.changes) :
    r.foldFrontier = r ∧ ∀ ptr ∈ r.frontier.pointers, Folded r.module ptr := by
  obtain ⟨whole, each⟩ := foldFrom_still same
  refine ⟨whole, fun ptr member => ?_⟩
  obtain ⟨k, found⟩ := List.mem_iff_getElem?.mp member
  have inside : k < r.frontier.pointers.length := (List.getElem?_eq_some_iff.mp found).1
  -- The bound on the pointers of a round is no less than those it starts with.
  refine each k (Nat.lt_of_lt_of_le inside (Nat.le_add_right _ _)) ptr ?_
  rwa [Nat.zero_add]

end Simplification

end VarRecovery
