import Mathlib.Data.List.Nodup
import Mathlib.Data.List.Perm.Subperm
import VarRecovery.Code.Module
import VarRecovery.FreshName

/-!
The name that is chosen is the first one that is not in use, so it can be declared.
-/

set_option autoImplicit false

namespace VarRecovery

namespace FreshName

theorem candidate_injective (base : String) : Function.Injective (candidate base) := by
  intro m n same
  cases m with
  | zero =>
    cases n with
    | zero => rfl
    | succ n =>
      have longer := congrArg String.length same
      simp only [candidate, String.length_append] at longer
      have dot : ".".length = 1 := rfl
      omega
  | succ m =>
    cases n with
    | zero =>
      have longer := congrArg String.length same
      simp only [candidate, String.length_append] at longer
      have dot : ".".length = 1 := rfl
      omega
    | succ n =>
      have digits := congrArg String.toList same
      simp only [candidate, String.toList_append, List.append_cancel_left_eq, Nat.repr, String.toList_ofList] at digits
      rw [← Nat.ofDigitChars_ten_toDigits (n := m + 1), digits, Nat.ofDigitChars_ten_toDigits]

/-- More names are tried than are in use, so one of them is free. -/
theorem exists_free (base : String) (used : List String) : 
    ∃ n ∈ List.range (used.length + 1), candidate base n ∉ used := by
  by_contra none
  have distinct : ((List.range (used.length + 1)).map (candidate base)).Nodup :=
    List.nodup_range.map (candidate_injective base)
  have within : (List.range (used.length + 1)).map (candidate base) ⊆ used := by
    intro name tried
    obtain ⟨n, inRange, rfl⟩ := List.mem_map.mp tried
    by_contra free
    exact none ⟨n, inRange, free⟩
  have short := (List.subperm_of_subset distinct within).length_le
  rw [List.length_map, List.length_range] at short
  omega

/-- The name is the first of the candidates that is free. -/
theorem choose_first (base : String) (used : List String) :
    ∃ n, choose used base = candidate base n ∧ candidate base n ∉ used ∧ ∀ k < n, candidate base k ∈ used := by
  obtain ⟨n, inRange, free⟩ := exists_free base used
  cases found : (List.range (used.length + 1)).find? ((· ∉ used) ∘ candidate base) with
  | none =>
    have taken := List.find?_eq_none.mp found n inRange
    simp [free] at taken
  | some first =>
    obtain ⟨isFree, -, before⟩ := List.find?_range_eq_some.mp found
    refine ⟨first, ?_, by simpa using isFree, fun k less => by simpa using before k less⟩
    rw [choose, List.find?_map, found]
    rfl

theorem choose_notMem (base : String) (used : List String) : choose used base ∉ used := by
  obtain ⟨n, chosen, free, -⟩ := choose_first base used
  exact chosen ▸ free

end FreshName

end VarRecovery
