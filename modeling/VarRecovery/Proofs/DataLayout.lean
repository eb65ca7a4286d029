import VarRecovery.DataLayout

/-!
Sizes of types as the layout of memory has them, and the offsets of packed fields.
-/

set_option autoImplicit false

namespace VarRecovery

namespace Word

theorem roundUp_lt (n a : Nat) : roundUp n a < count :=
  wrap_lt _

theorem roundUp_one (n : Nat) : roundUp n 1 = wrap n := by
  simp [roundUp]

theorem roundUp_self {n : Nat} (fits : n < count) : roundUp n n = n := by
  by_cases zero : n = 0
  · subst zero
    rfl
  · have one : (n + n - 1) / n = 1 := by
      rw [Nat.div_eq_iff (by omega)]
      omega
    rw [roundUp, one, Nat.one_mul, wrap_of_lt fits]

end Word

namespace DataLayout

variable {L : DataLayout} {ty : Ty} {alloc : Nat}

-- Lean derives the equations of the layout here, once for all the lemmas below.
attribute [local simp] size? align? maxAlign placeFields

/-- Whether a type stores all the bytes it takes, so that no padding follows its values. -/
def Fills (L : DataLayout) (ty : Ty) : Prop :=
  ∃ size, L.size? ty = some size ∧ ∃ alloc, L.allocSize? ty = some alloc ∧ alloc ≤ size

theorem allocSize?_some (sized : L.allocSize? ty = some alloc) :
    ∃ size align, L.size? ty = some size ∧ L.align? ty = some align ∧
      alloc = Word.roundUp size align := by
  simp only [allocSize?, bind, Option.bind_eq_some_iff, pure, Option.some.injEq] at sized
  obtain ⟨size, hasSize, align, hasAlign, same⟩ := sized
  exact ⟨size, align, hasSize, hasAlign, same.symm⟩

theorem allocSize?_lt (sized : L.allocSize? ty = some alloc) : alloc < Word.count := by
  obtain ⟨size, align, -, -, rfl⟩ := allocSize?_some sized
  exact Word.roundUp_lt size align

theorem size?_bytes (a : Architecture) {n : Nat} (fits : n < Word.count) :
    (ofArchitecture a).size? (.array .i8 n) = some n := by
  have byte : Word.wrap 1 = 1 := Word.wrap_of_lt (by decide)
  cases a <;>
    simp [ofArchitecture, IntWidth.bytes, Word.roundUp_one, Word.wrap_of_lt fits, byte]

theorem allocSize?_bytes (a : Architecture) {n : Nat} (fits : n < Word.count) :
    (ofArchitecture a).allocSize? (.array .i8 n) = some n := by
  have aligned : (ofArchitecture a).align? (.array .i8 n) = some 1 := by
    cases a <;> rfl
  rw [allocSize?, size?_bytes a fits, aligned]
  simp [Word.roundUp_one, Word.wrap_of_lt fits]

theorem allocSize?_ptr (a : Architecture) (ty : Ty) :
    (ofArchitecture a).allocSize? (.ptr ty) = some (ofArchitecture a).pointerBytes := by
  have four : Word.roundUp 4 4 = 4 := Word.roundUp_self (by decide)
  have eight : Word.roundUp 8 8 = 8 := Word.roundUp_self (by decide)
  cases a <;> simp [allocSize?, ofArchitecture, four, eight]

theorem placeFields_cons_packed {tys : List Ty} (sized : L.allocSize? ty = some alloc) (offset : Nat) :
    L.placeFields true offset (ty :: tys) =
      (L.placeFields true (Word.wrap (offset + alloc)) tys).map fun (offsets, stop) =>
        (offset :: offsets, stop) := by
  obtain ⟨size, align, hasSize, hasAlign, rfl⟩ := allocSize?_some sized
  simp only [placeFields, hasSize, hasAlign, if_true, bind, Option.bind_some]
  cases L.placeFields true (Word.wrap (offset + Word.roundUp size align)) tys <;> rfl

theorem placeFields_cons {packed : Bool} {start : Nat} {tys : List Ty} {offsets : List Nat} {stop : Nat}
    (placed : L.placeFields packed start (ty :: tys) = some (offsets, stop)) :
    ∃ offset next rest, offsets = offset :: rest ∧ next < Word.count ∧
      L.placeFields packed next tys = some (rest, stop) := by
  simp only [placeFields, bind, Option.bind_eq_some_iff, pure, Option.some.injEq, Prod.mk.injEq] at placed
  obtain ⟨align, -, size, -, ⟨rest, last⟩, behind, rfl, rfl⟩ := placed
  exact ⟨_, _, rest, rfl, Word.wrap_lt _, behind⟩

theorem placeFields_length {packed : Bool} {start : Nat} {tys : List Ty} {offsets : List Nat} {stop : Nat}
    (placed : L.placeFields packed start tys = some (offsets, stop)) : offsets.length = tys.length := by
  induction tys generalizing start offsets with
  | nil => simp_all
  | cons ty tys ih =>
    obtain ⟨offset, next, rest, rfl, -, behind⟩ := placeFields_cons placed
    simp [ih behind]

theorem placeFields_stop_lt {packed : Bool} {start : Nat} {tys : List Ty} {offsets : List Nat} {stop : Nat}
    (fits : start < Word.count) (placed : L.placeFields packed start tys = some (offsets, stop)) :
    stop < Word.count := by
  induction tys generalizing start offsets with
  | nil => simp_all
  | cons ty tys ih =>
    obtain ⟨offset, next, rest, rfl, word, behind⟩ := placeFields_cons placed
    exact ih word behind

theorem allocSize?_packed {name : String} {fields : List Ty} {offsets : List Nat} {stop : Nat}
    (placed : L.placeFields true 0 fields = some (offsets, stop)) :
    L.allocSize? (.struct name fields true) = some stop := by
  have fits := placeFields_stop_lt (by decide) placed
  -- A packed struct is aligned to one byte, so rounding its end up changes nothing.
  simp [allocSize?, placed, Word.roundUp_one, Word.wrap_of_lt fits]

end DataLayout

end VarRecovery
