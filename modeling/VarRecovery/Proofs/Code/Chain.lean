import Mathlib.Data.List.Nodup
import Mathlib.Data.List.Perm.Subperm
import VarRecovery.Code.Links

/-!
Chains: things in a row, each with links to its neighbours, and what following the links gives.
-/

set_option autoImplicit false

namespace VarRecovery

/-- What stands between `p` and `n`, each linked to its neighbours. -/
def Chained {α : Type} (before behind : α → Option α) : Option α → List α → Option α → Prop
  | _, [], _ => True
  | p, a :: as, n => before a = p ∧ behind a = as.head?.or n ∧ Chained before behind (some a) as n

namespace Chained

variable {α : Type} {before behind before' behind' : α → Option α} {p q n m : Option α} {xs ys : List α} {a b : α}

theorem append : Chained before behind p (xs ++ ys) n ↔
    Chained before behind p xs (ys.head?.or n) ∧ Chained before behind (xs.getLast?.or p) ys n := by
  induction xs generalizing p with
  | nil => simp [Chained]
  | cons x xs ih =>
    have next : (xs ++ ys).head?.or n = xs.head?.or (ys.head?.or n) := by cases xs <;> simp
    have last : (x :: xs).getLast?.or p = xs.getLast?.or (some x) := by
      cases xs <;> simp [List.getLast?_cons]
    rw [List.cons_append, Chained, Chained, ih, next, last]
    simp only [and_assoc]

theorem congr (chained : Chained before behind p xs n)
    (same : ∀ a ∈ xs, before' a = before a ∧ behind' a = behind a) : Chained before' behind' p xs n := by
  induction xs generalizing p with
  | nil => trivial
  | cons x xs ih =>
    obtain ⟨left, right, rest⟩ := chained
    obtain ⟨sameBefore, sameBehind⟩ := same x List.mem_cons_self
    exact ⟨sameBefore.trans left, sameBehind.trans right,
      ih rest fun a member => same a (List.mem_cons_of_mem _ member)⟩

/-- A chain with another neighbour behind it. -/
theorem relinkLast [DecidableEq α] (chained : Chained before behind p xs n) (nodup : xs.Nodup)
    (left : ∀ a ∈ xs, before' a = before a)
    (right : ∀ a ∈ xs, behind' a = if some a = xs.getLast? then m else behind a) :
    Chained before' behind' p xs m := by
  rcases List.eq_nil_or_concat xs with rfl | ⟨init, last, rfl⟩
  · trivial
  · rw [List.concat_eq_append] at *
    obtain ⟨absent, -⟩ : last ∉ init ∧ init.Nodup := by
      simpa [List.nodup_append, and_comm, imp_not_comm] using nodup
    obtain ⟨first, final⟩ := append.mp chained
    refine append.mpr ⟨first.congr fun a member => ⟨left a (by simp [member]), ?_⟩, ?_⟩
    · rw [right a (by simp [member]), if_neg]
      simp only [List.getLast?_append, List.getLast?_singleton, Option.some_or, Option.some.injEq]
      rintro rfl
      exact absent member
    · exact ⟨(left last (by simp)).trans final.1, by simp [right last], trivial⟩

/-- A chain with another neighbour in front of it. -/
theorem relinkFirst [DecidableEq α] (chained : Chained before behind p xs n) (nodup : xs.Nodup)
    (left : ∀ a ∈ xs, before' a = if some a = xs.head? then q else before a)
    (right : ∀ a ∈ xs, behind' a = behind a) : Chained before' behind' q xs n := by
  cases xs with
  | nil => trivial
  | cons x xs =>
    obtain ⟨-, next, rest⟩ := chained
    have absent : x ∉ xs := (List.nodup_cons.mp nodup).1
    refine ⟨by simp [left x], (right x List.mem_cons_self).trans next, rest.congr fun a member => ⟨?_, ?_⟩⟩
    · rw [left a (List.mem_cons_of_mem _ member), if_neg]
      rintro ⟨⟩
      exact absent member
    · exact right a (List.mem_cons_of_mem _ member)

theorem neighbours (chained : Chained before behind none (xs ++ a :: ys) none) :
    before a = xs.getLast? ∧ behind a = ys.head? := by
  obtain ⟨-, left, right, -⟩ := append.mp chained
  exact ⟨by simpa using left, by simpa using right⟩

/-- The links of neighbours mirror each other. -/
theorem mirror (chained : Chained before behind none xs none) (member : a ∈ xs) :
    (behind a = some b → b ∈ xs ∧ before b = some a) ∧ (before a = some b → b ∈ xs ∧ behind b = some a) := by
  obtain ⟨us, vs, rfl⟩ := List.append_of_mem member
  obtain ⟨left, right⟩ := chained.neighbours
  constructor
  · intro next
    obtain ⟨ws, rfl⟩ := List.head?_eq_some_iff.mp (right.symm.trans next)
    have split : us ++ a :: b :: ws = (us ++ [a]) ++ b :: ws := by simp
    obtain ⟨back, -⟩ := neighbours (split ▸ chained)
    exact ⟨by simp, by simpa using back⟩
  · intro previous
    obtain ⟨ws, rfl⟩ := List.getLast?_eq_some_iff.mp (left.symm.trans previous)
    have split : (ws ++ [b]) ++ a :: vs = ws ++ b :: a :: vs := by simp
    obtain ⟨-, forth⟩ := neighbours (split ▸ chained)
    exact ⟨by simp, by simpa using forth⟩

end Chained

/-! ### Following links -/

namespace Links

variable {α : Type} {before behind : α → Option α} {p start : Option α} {xs ys : List α} {n m : Nat}

theorem follow_of_chained (chained : Chained before behind p xs none) (enough : xs.length ≤ n) :
    follow behind n xs.head? = some xs := by
  induction xs generalizing p n with
  | nil => rw [List.head?_nil, follow]
  | cons x xs ih =>
    obtain ⟨-, next, rest⟩ := chained
    obtain ⟨n, rfl⟩ : ∃ k, n = k + 1 := Nat.exists_eq_add_one_of_ne_zero (by simp at enough; omega)
    rw [List.head?_cons, follow, next, Option.or_none, ih rest (by simpa using enough)]
    rfl

theorem follow_some {a : α} : follow behind n (some a) = some xs ↔
    ∃ k ys, n = k + 1 ∧ follow behind k (behind a) = some ys ∧ xs = a :: ys := by
  cases n with
  | zero => simp [follow]
  | succ n => simp [follow, Option.bind_eq_some_iff, eq_comm (a := xs)]

/-- More steps than a chain is long make no difference. -/
theorem follow_of_length_le (ends : follow behind n start = some xs) (enough : xs.length ≤ m) :
    follow behind m start = some xs := by
  induction n generalizing start xs m with
  | zero => cases start <;> simp_all [follow]
  | succ n ih =>
    cases start with
    | none => simpa [follow] using ends
    | some a =>
      obtain ⟨_, ys, ⟨rfl⟩, rest, rfl⟩ := follow_some.mp ends
      obtain ⟨m, rfl⟩ : ∃ k, m = k + 1 := Nat.exists_eq_add_one_of_ne_zero (by simp at enough; omega)
      exact follow_some.mpr ⟨m, ys, rfl, ih rest (by simpa using enough), rfl⟩

theorem follow_unique (left : follow behind n start = some xs) (right : follow behind m start = some ys) : xs = ys := by
  have left' := follow_of_length_le left (Nat.le_max_left xs.length ys.length)
  have right' := follow_of_length_le right (Nat.le_max_right xs.length ys.length)
  exact Option.some.inj (left'.symm.trans right')

theorem head?_of_follow (ends : follow behind n start = some xs) : start = xs.head? := by
  cases start with
  | none => cases n <;> simp_all [follow]
  | some a =>
    obtain ⟨_, _, _, _, rfl⟩ := follow_some.mp ends
    rfl

/-- What is behind a link of a chain is the rest of it. -/
theorem exists_follow_rest {a : α} (ends : follow behind n start = some (xs ++ a :: ys)) :
    ∃ k, follow behind k (behind a) = some ys := by
  induction xs generalizing n start with
  | nil =>
    obtain rfl : start = some a := head?_of_follow ends
    obtain ⟨k, _, _, rest, ⟨rfl⟩⟩ := follow_some.mp ends
    exact ⟨k, rest⟩
  | cons x xs ih =>
    obtain rfl : start = some x := head?_of_follow ends
    obtain ⟨k, _, _, rest, ⟨rfl⟩⟩ := follow_some.mp ends
    exact ih rest

theorem nodup_of_follow (ends : follow behind n start = some xs) : xs.Nodup := by
  induction xs generalizing n start with
  | nil => exact List.nodup_nil
  | cons x xs ih =>
    obtain rfl : start = some x := head?_of_follow ends
    obtain ⟨k, _, _, rest, ⟨rfl⟩⟩ := follow_some.mp ends
    refine List.nodup_cons.mpr ⟨fun again => ?_, ih rest⟩
    obtain ⟨us, vs, rfl⟩ := List.append_of_mem again
    obtain ⟨m, shorter⟩ := exists_follow_rest rest
    have same := congrArg List.length (follow_unique rest shorter)
    simp at same
    omega

/-- Along slots, a chain is no longer than they are and one that is not written. -/
theorem length_le_of_follow {β : Type} [Inhabited β] (s : Slots β) (link : β → Option α) {index : α → Nat}
    (injective : Function.Injective index) (last : link default = none)
    (ends : follow (fun a => link (s.get (index a))) n start = some xs) : xs.length ≤ s.written.size + 1 := by
  rcases List.eq_nil_or_concat xs with rfl | ⟨init, final, rfl⟩
  · simp
  · rw [List.concat_eq_append] at ends
    have written : ∀ k ∈ init.map index, k ∈ List.range s.written.size := by
      intro k member
      obtain ⟨a, inside, rfl⟩ := List.mem_map.mp member
      obtain ⟨us, vs, rfl⟩ := List.append_of_mem inside
      rw [List.append_assoc, List.cons_append] at ends
      obtain ⟨_, rest⟩ := exists_follow_rest ends
      refine List.mem_range.mpr (Nat.lt_of_not_le fun beyond => ?_)
      simpa [Slots.get, beyond, last] using head?_of_follow rest
    have distinct : (init.map index).Nodup :=
      (List.Nodup.of_append_left (nodup_of_follow ends)).map injective
    simpa using (List.subperm_of_subset distinct written).length_le

end Links

end VarRecovery
