import VarRecovery.Address

/-!
Looking up addresses. Entries lie in order of their addresses, so each address has at most one.
-/

set_option autoImplicit false

namespace VarRecovery.AddressMap

variable {α : Type} {m : AddressMap α} {a b : Nat} {x : α}

theorem lookup_insertEntry (a b : Nat) (x : α) (es : List (Nat × α)) (ascending : es.Pairwise (·.1 < ·.1)) :
    (insertEntry a x es).lookup b = if b = a then some x else es.lookup b := by
  induction es with
  | nil =>
    by_cases same : b = a
    · simp [insertEntry, same]
    · have apart : (b == a) = false := by simpa using same
      simp [insertEntry, List.lookup_cons, apart, same]
  | cons head rest ih =>
    obtain ⟨other, y⟩ := head
    obtain ⟨above, tail⟩ := List.pairwise_cons.mp ascending
    unfold insertEntry
    by_cases same : b = a
    · subst same
      have new := ih tail
      rw [if_pos rfl] at new ⊢
      split
      next => exact List.lookup_cons_self
      next =>
        split
        next => exact List.lookup_cons_self
        next differ =>
          have apart : (b == other) = false := by simpa using differ
          simpa [List.lookup_cons, apart] using new
    · have apart : (b == a) = false := by simpa using same
      have old := ih tail
      rw [if_neg same] at old ⊢
      split
      next => rw [List.lookup_cons, apart]
      next =>
        split
        next here =>
          subst here
          rw [List.lookup_cons, List.lookup_cons, apart]
        next => rw [List.lookup_cons, List.lookup_cons, old]

theorem find?_insert (m : AddressMap α) (a : Nat) (x : α) (b : Nat) :
    (m.insert a x).find? b = if b = a then some x else m.find? b :=
  lookup_insertEntry a b x m.entries m.ascending

theorem find?_eq_some_iff : m.find? a = some x ↔ (a, x) ∈ m.entries := by
  have general (es : List (Nat × α)) (ascending : es.Pairwise (·.1 < ·.1)) :
      es.lookup a = some x ↔ (a, x) ∈ es := by
    induction es with
    | nil => simp
    | cons head rest ih =>
      obtain ⟨other, y⟩ := head
      obtain ⟨above, tail⟩ := List.pairwise_cons.mp ascending
      by_cases here : a = other
      · subst here
        have absent : (a, x) ∉ rest := fun member => Nat.lt_irrefl _ (above (a, x) member)
        simp [absent, eq_comm]
      · have apart : (a == other) = false := by simpa using here
        simp [List.lookup_cons, apart, ih tail, here]
  exact general m.entries m.ascending

theorem mem_entries_insert {e : Nat × α} : e ∈ (m.insert a x).entries ↔ e = (a, x) ∨ e ∈ m.entries ∧ e.1 ≠ a := by
  obtain ⟨b, y⟩ := e
  rw [← find?_eq_some_iff, ← find?_eq_some_iff, find?_insert]
  by_cases here : b = a
  · simp [here, eq_comm]
  · simp [here]

theorem eq_of_mem {e d : Nat × α} (one : e ∈ m.entries) (other : d ∈ m.entries) (same : e.1 = d.1) : e = d := by
  obtain ⟨b, y⟩ := e
  obtain ⟨c, z⟩ := d
  cases same
  have found := (find?_eq_some_iff.mpr one).symm.trans (find?_eq_some_iff.mpr other)
  rw [Option.some.inj found]

/-! ### The last entry below a limit -/

variable {limit : Nat}

theorem lastBelow?_eq_none : m.lastBelow? limit = none ↔ ∀ e ∈ m.entries, limit ≤ e.1 := by
  simp [lastBelow?]

theorem lastBelow?_eq_some {e : Nat × α} : m.lastBelow? limit = some e ↔
    e ∈ m.entries ∧ e.1 < limit ∧ ∀ d ∈ m.entries, d.1 < limit → d.1 ≤ e.1 := by
  have ascending : (m.entries.filter (·.1 < limit)).Pairwise (·.1 < ·.1) := m.ascending.filter _
  have member (d : Nat × α) : d ∈ m.entries.filter (·.1 < limit) ↔ d ∈ m.entries ∧ d.1 < limit := by simp
  have last {d : Nat × α} (found : m.lastBelow? limit = some d) :
      d ∈ m.entries ∧ d.1 < limit ∧ ∀ c ∈ m.entries, c.1 < limit → c.1 ≤ d.1 := by
    obtain ⟨front, same⟩ := List.getLast?_eq_some_iff.mp found
    rw [same] at ascending member
    obtain ⟨known, below⟩ := (member d).mp (by simp)
    refine ⟨known, below, fun c inside under => ?_⟩
    rcases List.mem_append.mp ((member c).mpr ⟨inside, under⟩) with before | here
    · exact Nat.le_of_lt ((List.pairwise_append.mp ascending).2.2 c before d (List.mem_singleton_self d))
    · exact Nat.le_of_eq (congrArg Prod.fst (List.mem_singleton.mp here))
  refine ⟨last, fun ⟨known, below, greatest⟩ => ?_⟩
  cases found : m.lastBelow? limit with
  | none => exact absurd (lastBelow?_eq_none.mp found e known) (Nat.not_le_of_lt below)
  | some d =>
    obtain ⟨known', below', greatest'⟩ := last found
    rw [eq_of_mem known' known (Nat.le_antisymm (greatest d known' below') (greatest' e known below))]

theorem mem_between {low high : Nat} {e : Nat × α} :
    e ∈ m.between low high ↔ e ∈ m.entries ∧ low ≤ e.1 ∧ e.1 ≤ high := by
  simp [between]

theorem descending_between {low high : Nat} : (m.between low high).Pairwise (·.1 > ·.1) :=
  List.pairwise_reverse.mpr (m.ascending.filter _)

end VarRecovery.AddressMap
