/-!
Addresses of a 64-bit address space, and maps from addresses that list their entries in order.
-/

set_option autoImplicit false

namespace VarRecovery

def maxAddress : Nat := 0xFFFFFFFFFFFFFFFF

/-- The end of a range, moved back to the last address if it lies behind it. -/
def clipAddress (n : Nat) : Nat :=
  min n maxAddress

def addressText (n : Nat) : String :=
  "0x" ++ String.ofList (Nat.toDigits 16 n)

structure AddressMap (α : Type) where
  entries : List (Nat × α)
  ascending : entries.Pairwise (·.1 < ·.1)

namespace AddressMap

variable {α : Type}

def empty : AddressMap α := ⟨[], .nil⟩

def find? (m : AddressMap α) (address : Nat) : Option α :=
  m.entries.lookup address

/-- Puts a value into ascending entries, in place of the one at its address. -/
def insertEntry (address : Nat) (a : α) : List (Nat × α) → List (Nat × α)
  | [] => [(address, a)]
  | (other, b) :: rest =>
    if address < other then (address, a) :: (other, b) :: rest
    else if address = other then (address, a) :: rest
    else (other, b) :: insertEntry address a rest

theorem mem_insertEntry (address : Nat) (a : α) (es : List (Nat × α)) (e : Nat × α)
    (member : e ∈ insertEntry address a es) : e = (address, a) ∨ e ∈ es := by
  induction es with
  | nil => exact .inl (by simpa [insertEntry] using member)
  | cons head rest ih =>
    unfold insertEntry at member
    split at member
    · simpa using member
    · split at member
      · rcases List.mem_cons.mp member with same | inside
        · exact .inl same
        · exact .inr (List.mem_cons_of_mem _ inside)
      · rcases List.mem_cons.mp member with same | inside
        · exact .inr (same ▸ List.mem_cons_self)
        · exact (ih inside).imp id (List.mem_cons_of_mem _)

theorem ascending_insertEntry (address : Nat) (a : α) (es : List (Nat × α))
    (ascending : es.Pairwise (·.1 < ·.1)) : (insertEntry address a es).Pairwise (·.1 < ·.1) := by
  induction es with
  | nil => exact List.pairwise_singleton _ _
  | cons head rest ih =>
    obtain ⟨above, tail⟩ := List.pairwise_cons.mp ascending
    unfold insertEntry
    split
    · rename_i below
      refine List.pairwise_cons.mpr ⟨fun e member => ?_, ascending⟩
      rcases List.mem_cons.mp member with same | inside
      · exact same ▸ below
      · exact Nat.lt_trans below (above e inside)
    · split
      · rename_i same
        exact List.pairwise_cons.mpr ⟨fun e member => same ▸ above e member, tail⟩
      · refine List.pairwise_cons.mpr ⟨fun e member => ?_, ih tail⟩
        rcases mem_insertEntry address a rest e member with rfl | inside
        · simp only
          omega
        · exact above e inside

def insert (m : AddressMap α) (address : Nat) (a : α) : AddressMap α :=
  ⟨insertEntry address a m.entries, ascending_insertEntry address a m.entries m.ascending⟩

/-- The entry with the greatest address below `limit`. -/
def lastBelow? (m : AddressMap α) (limit : Nat) : Option (Nat × α) :=
  (m.entries.filter (·.1 < limit)).getLast?

/-- The entries with addresses from `low` to `high`, both included, the greatest first. -/
def between (m : AddressMap α) (low high : Nat) : List (Nat × α) :=
  (m.entries.filter fun e => low ≤ e.1 && e.1 ≤ high).reverse

end AddressMap

end VarRecovery
