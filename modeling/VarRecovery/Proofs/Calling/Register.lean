import Mathlib.Data.List.Basic
import VarRecovery.Calling.Register

/-!
What register allocation finds: the first free slot that takes a value, under the first of its names that
does. It finds none only if no free slot takes the value.
-/

set_option autoImplicit false

namespace VarRecovery

theorem RegisterVariant.accepts_iff {v : RegisterVariant} {c : ValueClass} :
    v.accepts c = true ↔ c.size ∈ v.sizes ∧ c.kind ∈ v.kinds := by
  simp [accepts, maskCovers]

namespace RegisterSlot

variable {s : RegisterSlot} {slots : List RegisterSlot} {reserved : List Bool} {c : ValueClass}

def Accepts (s : RegisterSlot) (c : ValueClass) : Prop :=
  ∃ v ∈ s.variants, c.size ∈ v.sizes ∧ c.kind ∈ v.kinds

/-- Whether `v` is the first name of a slot that takes a value. -/
structure IsFirst (s : RegisterSlot) (c : ValueClass) (v : RegisterVariant) : Prop where
  accepts : c.size ∈ v.sizes ∧ c.kind ∈ v.kinds
  first : ∃ before after, s.variants = before ++ v :: after ∧
    ∀ u ∈ before, ¬(c.size ∈ u.sizes ∧ c.kind ∈ u.kinds)

theorem isFirst_of_select? {v : RegisterVariant} (h : s.select? c = some v) : s.IsFirst c v := by
  obtain ⟨accepts, before, after, split, none⟩ := List.find?_eq_some_iff_append.mp h
  refine ⟨RegisterVariant.accepts_iff.mp accepts, before, after, split, fun u member => ?_⟩
  simpa [← RegisterVariant.accepts_iff] using none u member

theorem select?_eq_none : s.select? c = none ↔ ¬s.Accepts c := by
  simp [select?, Accepts, List.find?_eq_none, RegisterVariant.accepts_iff]

theorem reserved_of_passed {k : Nat} (accepts : s.Accepts c)
    (passed : (if reserved.getD k false then none else (s.select? c).map fun v => (k, v.register)) = none) :
    reserved.getD k false = true := by
  by_contra free
  rw [if_neg free] at passed
  exact select?_eq_none.mp (Option.map_eq_none_iff.mp passed) accepts

theorem firstFit?_none (h : firstFit? slots reserved c = none) {k : Nat} (slot : slots[k]? = some s)
    (accepts : s.Accepts c) : reserved.getD k false = true := by
  have member : (s, k) ∈ slots.zipIdx := by simpa [List.mem_zipIdx_iff_getElem?] using slot
  exact reserved_of_passed accepts (List.findSome?_eq_none_iff.mp h _ member)

theorem firstFit?_some {k : Nat} {register : String} (h : firstFit? slots reserved c = some (k, register)) :
    ∃ s v, slots[k]? = some s ∧ s.IsFirst c v ∧ register = v.register ∧ reserved.getD k false = false ∧
      ∀ j u, slots[j]? = some u → u.Accepts c → j < k → reserved.getD j false = true := by
  obtain ⟨before, ⟨s, i⟩, after, split, found, none⟩ := List.findSome?_eq_some_iff.mp h
  have index (j : Nat) : slots.zipIdx[j]? = (slots[j]?).map fun u => (u, j) := by simp
  have here : i = before.length ∧ slots[i]? = some s := by
    have last := index before.length
    simp only [split, List.getElem?_append_right (Nat.le_refl _), Nat.sub_self, List.getElem?_cons_zero] at last
    obtain ⟨u, slot, same⟩ := Option.map_eq_some_iff.mp last.symm
    cases same
    exact ⟨rfl, slot⟩
  obtain ⟨rfl, slot⟩ := here
  dsimp only at found
  split at found
  next => cases found
  next free =>
    obtain ⟨v, selects, same⟩ := Option.map_eq_some_iff.mp found
    cases same
    refine ⟨s, v, slot, isFirst_of_select? selects, rfl, by simpa using free, fun j u other accepts lower => ?_⟩
    have member : (u, j) ∈ before := by
      have entry := index j
      rw [split, List.getElem?_append_left lower, other] at entry
      exact List.mem_of_getElem? entry
    exact reserved_of_passed accepts (none _ member)

end RegisterSlot

namespace Allocation

def IsTaken (a : Allocation) (k : Nat) : Prop :=
  a.reserved.getD k false = true

variable {a : Allocation} {c : ValueClass}

theorem not_isTaken_start (slots : List RegisterSlot) (k : Nat) : ¬(start slots).IsTaken k := by
  by_cases inside : k < slots.length <;> simp [IsTaken, start, List.getD, inside]

theorem allocate?_none (h : a.allocate? c = none) {k : Nat} {s : RegisterSlot} (slot : a.slots[k]? = some s)
    (accepts : s.Accepts c) : a.IsTaken k := by
  apply RegisterSlot.firstFit?_none _ slot accepts
  cases found : RegisterSlot.firstFit? a.slots a.reserved c with
  | none => rfl
  | some fit => simp [allocate?, found] at h

/-- An allocation takes one slot, which was free, and no slot before it could have been taken. -/
theorem allocate?_some {register : String} {a' : Allocation} (h : a.allocate? c = some (register, a')) :
    ∃ k s v, a.slots[k]? = some s ∧ s.IsFirst c v ∧ register = v.register ∧ ¬a.IsTaken k ∧
      (∀ j u, a.slots[j]? = some u → u.Accepts c → j < k → a.IsTaken j) ∧
      a' = { a with reserved := a.reserved.set k true } := by
  obtain ⟨⟨k, name⟩, found, same⟩ := Option.bind_eq_some_iff.mp h
  cases same
  obtain ⟨s, v, slot, first, rfl, free, before⟩ := RegisterSlot.firstFit?_some found
  exact ⟨k, s, v, slot, first, rfl, by simpa [IsTaken] using free, before, rfl⟩

theorem isTaken_set (k j : Nat) (inside : k < a.reserved.length) :
    ({ a with reserved := a.reserved.set k true } : Allocation).IsTaken j ↔ j = k ∨ a.IsTaken j := by
  by_cases same : k = j
  · subst same
    simp [IsTaken, List.getD, inside]
  · simp [IsTaken, List.getD, List.getElem?_set_ne same, Ne.symm same]

end Allocation

end VarRecovery
