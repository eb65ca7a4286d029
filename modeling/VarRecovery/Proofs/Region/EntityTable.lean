import VarRecovery.Proofs.Address
import VarRecovery.Region.EntityTable

/-!
Tables whose entities exist and lie at one address each, and what can be asked of a table after a change.
-/

set_option autoImplicit false

namespace VarRecovery

namespace Module

def Has (m : Module) : Entity → Prop
  | .func f => ∃ func, m.func? f = some func
  | .var id => ∃ v, m.global? id = some v

end Module

namespace EntityTable

def Injective (t : EntityTable) : Prop :=
  ∀ a b e, t.get? a = some e → t.get? b = some e → a = b

def Exists (t : EntityTable) (m : Module) : Prop :=
  ∀ a e, t.get? a = some e → m.Has e

variable {t : EntityTable} {a : Nat}

theorem get?_eq_some {e : Entity} : t.get? a = some e ↔ ∃ size, t.entities.find? a = some (e, size) := by
  unfold get?
  cases t.entities.find? a with
  | none => simp
  | some entry => cases entry; simp [eq_comm]

theorem get?_putVar (t : EntityTable) (a : Nat) (id : GlobalId) (size b : Nat) :
    (t.putVar a id size).get? b = if b = a then some (.var id) else t.get? b := by
  unfold get? putVar
  rw [AddressMap.find?_insert]
  split <;> rfl

theorem get?_resize (t : EntityTable) (a size b : Nat) : (t.resize a size).get? b = t.get? b := by
  unfold resize
  split
  next entity old found =>
    unfold get?
    rw [AddressMap.find?_insert]
    split
    next here => simp [here, found]
    next => rfl
  next => rfl

theorem covering?_sound {start : Nat} {id : GlobalId} {size : Nat}
    (covered : t.covering? a = some (start, id, size)) :
    t.entities.find? start = some (.var id, size) ∧ start ≤ a ∧ a < start + size := by
  obtain ⟨⟨low, entity, bytes⟩, member, reaches⟩ := List.exists_of_findSome?_eq_some covered
  obtain ⟨entry, -, below⟩ := AddressMap.mem_between.mp member
  cases entity with
  | func f => cases reaches
  | var other =>
    simp only [coveredBy?] at reaches
    split at reaches
    next inside =>
      cases reaches
      have clipped : clipAddress (start + size) ≤ start + size := Nat.min_le_left _ _
      exact ⟨AddressMap.find?_eq_some_iff.mpr entry, below, by omega⟩
    next => cases reaches

end EntityTable

end VarRecovery
