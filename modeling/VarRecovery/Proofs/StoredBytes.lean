import VarRecovery.Proofs.TypeLayout

/-!
How many bytes a type stores of those it takes. It never stores more, but a vector may be too large to be aligned, and
then it takes no number of bytes.
-/

set_option autoImplicit false

namespace VarRecovery

namespace Word

variable {n a : Nat}

theorem dvd_wrap (power : a ∈ [1, 2, 4, 8, 16]) (multiple : a ∣ n) : a ∣ wrap n := by
  have word : a ∣ count := by
    simp only [List.mem_cons, List.not_mem_nil, or_false] at power
    rcases power with rfl | rfl | rfl | rfl | rfl <;> decide
  exact (Nat.dvd_mod_iff word).mpr multiple

theorem roundUp_of_dvd (pos : 0 < a) (multiple : a ∣ n) : roundUp n a = wrap n :=
  congrArg wrap (ceil_of_dvd pos multiple)

theorem ceil_lt (pos : 0 < a) (n : Nat) : ceil n a < n + a := by
  have := Nat.div_mul_le_self (n + a - 1) a
  unfold ceil
  omega

/-- Rounding up adds less than an alignment. -/
theorem exists_roundUp_eq (pos : 0 < a) (n : Nat) : ∃ d, d < a ∧ roundUp n a = wrap (n + d) := by
  have le := le_ceil pos n
  have lt := ceil_lt pos n
  refine ⟨ceil n a - n, by omega, ?_⟩
  rw [Nat.add_sub_cancel' le]
  rfl

theorem roundUp_roundUp (power : a ∈ [1, 2, 4, 8, 16]) (n : Nat) : roundUp (roundUp n a) a = roundUp n a := by
  have pos : 0 < a := by
    simp only [List.mem_cons, List.not_mem_nil, or_false] at power
    omega
  have multiple : a ∣ roundUp n a := dvd_wrap power (Nat.dvd_mul_left a _)
  rw [roundUp_of_dvd pos multiple, wrap_of_lt (roundUp_lt n a)]

end Word

namespace DataLayout

variable {a : Architecture} {ty : Ty} {size align alloc : Nat}

theorem vectorAlign_mem (size : Nat) : vectorAlign size ∈ [0, 1, 2, 4, 8, 16] := by
  unfold vectorAlign
  repeat' split
  all_goals decide

theorem max_power {one other : Nat} (left : one ∈ [0, 1, 2, 4, 8, 16]) (right : other ∈ [1, 2, 4, 8, 16]) :
    max one other ∈ [1, 2, 4, 8, 16] := by
  simp only [List.mem_cons, List.not_mem_nil, or_false] at left right ⊢
  omega

/-- An alignment is a power of two, or 0 if no word holds the power. -/
theorem align?_mem (a : Architecture) (ty : Ty) :
    ∀ align ∈ (ofArchitecture a).align? ty, align ∈ [0, 1, 2, 4, 8, 16] := by
  induction ty using Ty.induct with
  | step ty ih =>
    intro align aligned
    cases ty with
    | int w => cases a <;> cases w <;> cases aligned <;> decide
    | float w => cases a <;> cases w <;> cases aligned <;> decide
    | ptr => cases a <;> cases aligned <;> decide
    | unit | func => cases aligned
    | array elem len => exact ih elem (List.mem_singleton_self elem) align aligned
    | vector elem len =>
      simp only [align?, bind, Option.mem_def, Option.bind_eq_some_iff, pure, Option.some.injEq] at aligned
      obtain ⟨size, -, rfl⟩ := aligned
      exact vectorAlign_mem _
    | struct name fields packed =>
      -- The hypothesis is about fields of this record, hence the list that stays inside them.
      have strictest (tys : List Ty) (inside : tys ⊆ fields) :
          ∀ align ∈ (ofArchitecture a).maxAlign tys, align ∈ [1, 2, 4, 8, 16] := by
        induction tys with
        | nil =>
          intro align same
          cases same
          decide
        | cons ty tys others =>
          intro align same
          simp only [maxAlign, bind, Option.mem_def, Option.bind_eq_some_iff, pure, Option.some.injEq] at same
          obtain ⟨one, first, most, rest, rfl⟩ := same
          exact max_power (ih ty (inside List.mem_cons_self) one first)
            (others (List.subset_of_cons_subset inside) most rest)
      rw [align?] at aligned
      split at aligned
      next => cases aligned; decide
      next => exact List.mem_cons_of_mem 0 (strictest fields (List.Subset.refl _) align aligned)

theorem size?_lt (sized : (ofArchitecture a).size? ty = some size) : size < Word.count := by
  cases ty with
  | int w => cases w <;> cases sized <;> decide
  | float w => cases w <;> cases sized <;> decide
  | ptr => cases a <;> cases sized <;> decide
  | unit | func => cases sized
  | array | vector =>
    simp only [size?, bind, Option.bind_eq_some_iff, pure, Option.some.injEq] at sized
    obtain ⟨_, -, sized⟩ := sized
    first
      | exact sized ▸ Word.wrap_lt _
      | obtain ⟨_, -, sized⟩ := sized; exact sized ▸ Word.wrap_lt _
  | struct name fields packed =>
    simp only [size?, bind, Option.bind_eq_some_iff] at sized
    obtain ⟨⟨offsets, stop⟩, placed, sized⟩ := sized
    split at sized
    next =>
      cases sized
      exact placeFields_stop_lt (by decide) placed
    next =>
      simp only [Option.bind_eq_some_iff, pure, Option.some.injEq] at sized
      obtain ⟨_, -, rfl⟩ := sized
      exact Word.roundUp_lt _ _

/-- No type stores more bytes than it takes, vectors apart that are too large to be aligned. -/
theorem size?_le_allocSize? (sized : (ofArchitecture a).size? ty = some size)
    (takes : (ofArchitecture a).allocSize? ty = some alloc) (aligned : (ofArchitecture a).align? ty ≠ some 0) :
    size ≤ alloc := by
  obtain ⟨same, align, again, hasAlign, rfl⟩ := allocSize?_some takes
  obtain rfl := Option.some.inj (sized.symm.trans again)
  have word := size?_lt sized
  have power : align ∈ [1, 2, 4, 8, 16] :=
    (List.mem_cons.mp (align?_mem a ty align hasAlign)).resolve_left fun zero => aligned (zero ▸ hasAlign)
  have pos : 0 < align := by
    simp only [List.mem_cons, List.not_mem_nil, or_false] at power
    omega
  -- A size that is a multiple of the alignment is not rounded.
  have whole (multiple : align ∣ size) : size ≤ Word.roundUp size align :=
    Nat.le_of_eq ((Word.roundUp_of_dvd pos multiple).trans (Word.wrap_of_lt word)).symm
  cases ty with
  | int w => cases a <;> cases w <;> cases sized <;> cases hasAlign <;> decide
  | float w => cases a <;> cases w <;> cases sized <;> cases hasAlign <;> decide
  | ptr => cases a <;> cases sized <;> cases hasAlign <;> decide
  | unit | func => cases sized
  | array elem len =>
    simp only [size?, bind, Option.bind_eq_some_iff, pure, Option.some.injEq] at sized
    obtain ⟨one, -, other, elemAlign, rfl⟩ := sized
    rw [align?] at hasAlign
    obtain rfl := Option.some.inj (elemAlign.symm.trans hasAlign)
    have element : other ∣ Word.roundUp one other := Word.dvd_wrap power (Nat.dvd_mul_left other _)
    exact whole (Word.dvd_wrap power (Nat.dvd_mul_right_of_dvd element len))
  | vector elem len =>
    simp only [size?, bind, Option.bind_eq_some_iff, pure, Option.some.injEq] at sized
    obtain ⟨one, first, same⟩ := sized
    simp only [align?, first, bind, Option.bind_some, pure, Option.some.injEq] at hasAlign
    have small : size ≤ 0x8000000000000000 := by
      rw [same] at hasAlign
      unfold vectorAlign at hasAlign
      repeat' split at hasAlign
      all_goals omega
    have rounded := Word.ceil_lt pos size
    have least : align ≤ 16 := by
      simp only [List.mem_cons, List.not_mem_nil, or_false] at power
      omega
    rw [Word.roundUp_of_lt (by unfold Word.count; omega)]
    exact Word.le_ceil pos size
  | struct name fields packed =>
    simp only [size?, bind, Option.bind_eq_some_iff] at sized
    obtain ⟨⟨offsets, stop⟩, placed, sized⟩ := sized
    cases packed with
    | true =>
      cases hasAlign
      exact whole (Nat.one_dvd size)
    | false =>
      simp only [Bool.false_eq_true, if_false, Option.bind_eq_some_iff, pure, Option.some.injEq] at sized
      obtain ⟨strictest, same, rfl⟩ := sized
      simp only [align?, Bool.false_eq_true, if_false] at hasAlign
      obtain rfl := Option.some.inj (same.symm.trans hasAlign)
      exact whole (Word.dvd_wrap power (Nat.dvd_mul_left strictest _))

/-- Types that take a number of bytes are regular, but for vectors that are too large to be aligned. -/
theorem regular_of_allocSize? (takes : (ofArchitecture a).allocSize? ty = some alloc)
    (aligned : (ofArchitecture a).align? ty ≠ some 0) : ∃ size align, (ofArchitecture a).Regular ty size align := by
  obtain ⟨size, align, sized, hasAlign, rfl⟩ := allocSize?_some takes
  have power : align ∈ [1, 2, 4, 8, 16] :=
    (List.mem_cons.mp (align?_mem a ty align hasAlign)).resolve_left fun zero => aligned (zero ▸ hasAlign)
  have bounds : 0 < align ∧ align ≤ 16 := by
    simp only [List.mem_cons, List.not_mem_nil, or_false] at power
    omega
  have large := size?_le_allocSize? sized takes aligned
  have rounded := Word.ceil_lt bounds.1 size
  refine ⟨size, align, sized, hasAlign, power, ?_⟩
  -- If the rounded size passed a word, what is left of it would be less than the size.
  change size ≤ Word.ceil size align % Word.count at large
  have word := size?_lt sized
  unfold Word.count at word large ⊢
  omega

end DataLayout

end VarRecovery
