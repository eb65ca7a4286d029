import VarRecovery.Pointer.Path
import VarRecovery.Proofs.TypeLayout

/-!
What a path into a type leads to. Each index enters a part, and what an offset has behind the starts of all the parts
that were entered is its rest. A path ends where its rest is nothing, or lies in no further part.
-/

set_option autoImplicit false

namespace VarRecovery.DataLayout

variable {L : DataLayout} {ty elem : Ty} {fields : List Ty} {len rest : Nat}

/-- The part of a value that an index names, and where it starts. -/
inductive Enters (L : DataLayout) : Ty → Nat → Ty → Nat → Prop
  | element {elem : Ty} {len n size : Nat} (inside : n < len) (sized : L.allocSize? elem = some size) :
      Enters L (.array elem len) n elem (n * size)
  | lane {elem : Ty} {len n size : Nat} (inside : n < len) (sized : L.allocSize? elem = some size) :
      Enters L (.vector elem len) n elem (n * size)
  | field {name : String} {fields : List Ty} {packed : Bool} {part : Ty} {n start : Nat}
      (named : fields[n]? = some part) (placed : L.fieldOffset? (.struct name fields packed) n = some start) :
      Enters L (.struct name fields packed) n part start

/-- The part that indices lead to one after another, and where it starts. -/
inductive Leads (L : DataLayout) : Ty → List Nat → Ty → Nat → Prop
  | here (ty : Ty) : Leads L ty [] ty 0
  | step {ty part last : Ty} {n start offset : Nat} {ns : List Nat} (first : L.Enters ty n part start)
      (others : Leads L part ns last offset) : Leads L ty (n :: ns) last (start + offset)

/-- An offset lies in no part of a value: in none of its elements, and in front of all its fields. -/
def Ends (L : DataLayout) : Ty → Nat → Prop
  | .array elem len, rest | .vector elem len, rest =>
    ∀ size n, L.allocSize? elem = some size → n < len → ¬ (n * size ≤ rest ∧ rest < (n + 1) * size)
  | .struct name fields packed, rest =>
    ∀ n start, L.fieldOffset? (.struct name fields packed) n = some start → rest < start
  | _, _ => True

/-- A path leads to a part of a value and what is left of the offset lies in none of that. -/
structure Descends (L : DataLayout) (ty : Ty) (offset : Nat) (path : TyPath) : Prop where
  exact_ : ∃ start, L.Leads ty path.indices path.ty start ∧ start + path.rest = offset
  ends : path.rest ≠ 0 → L.Ends path.ty path.rest

theorem Descends.stop (ends : rest ≠ 0 → L.Ends ty rest) : L.Descends ty rest ⟨[], ty, rest⟩ :=
  ⟨⟨0, .here ty, Nat.zero_add rest⟩, ends⟩

theorem Descends.cons {part : Ty} {n start offset : Nat} {path : TyPath} (first : L.Enters ty n part start)
    (others : L.Descends part rest path) (whole : start + rest = offset) : L.Descends ty offset (path.cons n) := by
  obtain ⟨behind, leads, rfl⟩ := others.exact_
  exact ⟨⟨start + behind, .step first leads, (Nat.add_assoc ..).trans whole⟩, others.ends⟩

/-! ### The descent -/

theorem exists_allocSize? (place : ty.HasPlace) : ∃ size, L.allocSize? ty = some size := by
  obtain ⟨sized, aligned⟩ := isSome_size?_iff (L := L) ty
  obtain ⟨size, hasSize⟩ := Option.isSome_iff_exists.mp (sized.mpr place)
  obtain ⟨align, hasAlign⟩ := Option.isSome_iff_exists.mp (aligned place)
  exact ⟨Word.roundUp size align, by simp [allocSize?, hasSize, hasAlign]⟩

theorem hasPlace_of_allocSize? {size : Nat} (sized : L.allocSize? ty = some size) : ty.HasPlace := by
  obtain ⟨bytes, -, hasSize, -⟩ := allocSize?_some sized
  exact (isSome_size?_iff ty).1.mp (by rw [hasSize]; rfl)

/-- The last field that starts at the offset or before, or none if all start behind it. -/
theorem descendField_cases {starts : List Nat} (lengths : starts.length = fields.length) (index rest : Nat) :
    (L.descendField fields starts index rest = none ∧ ∀ start ∈ starts, rest < start) ∨
      ∃ (n : Nat) (field : Ty) (start : Nat), fields[n]? = some field ∧ starts[n]? = some start ∧ start ≤ rest ∧
        L.descendField fields starts index rest = some ((L.descend field (rest - start)).map (.cons (index + n))) := by
  induction fields generalizing starts index with
  | nil =>
    cases List.eq_nil_of_length_eq_zero lengths
    exact .inl ⟨by rw [descendField]; simp, nofun⟩
  | cons field fields ih =>
    obtain ⟨start, starts, rfl⟩ := List.exists_cons_of_length_eq_add_one lengths
    rw [descendField]
    -- A later field that starts no later than the offset wins over this one.
    rcases ih (Nat.succ.inj lengths) (index + 1) with ⟨none_, behind⟩ | ⟨n, later, first, named, placed, before, found⟩
    · rw [none_]
      dsimp only
      split
      next before => exact .inr ⟨0, field, start, rfl, rfl, before, rfl⟩
      next after => exact .inl ⟨rfl, List.forall_mem_cons.mpr ⟨Nat.lt_of_not_le after, behind⟩⟩
    · refine .inr ⟨n + 1, later, first, named, placed, before, ?_⟩
      rw [found, Nat.add_right_comm, Nat.add_assoc]

/-- An offset into elements of one size lies in the one of its quotient, or in none. -/
theorem descend_elements {size : Nat} (sized : L.allocSize? elem = some size)
    (enters : ∀ n < len, L.Enters ty n elem (n * size))
    (ends : ∀ rest, (∀ other n, L.allocSize? elem = some other → n < len →
      ¬ (n * other ≤ rest ∧ rest < (n + 1) * other)) → L.Ends ty rest)
    (inner : ∀ rest, ∃ path, L.descend elem rest = some path ∧ L.Descends elem rest path) (rest : Nat) :
    ∃ path, (if rest = 0 then some ⟨[], ty, 0⟩
      else if size = 0 ∨ len ≤ rest / size then some ⟨[], ty, rest⟩
      else (L.descend elem (rest % size)).map (.cons (rest / size))) = some path ∧ L.Descends ty rest path := by
  split
  next nothing => exact ⟨_, rfl, nothing ▸ .stop fun some_ => absurd nothing (nothing ▸ some_)⟩
  next =>
    split
    -- Elements without bytes hold no offset, and behind the last one there is none.
    next stops =>
      refine ⟨_, rfl, .stop fun _ => ends rest fun other n same inside => ?_⟩
      cases sized.symm.trans same
      rintro ⟨low, high⟩
      rcases stops with rfl | behind
      · simp at high
      · exact absurd (Nat.div_lt_of_lt_mul (Nat.mul_comm .. ▸ high)) (by omega)
    next inside =>
      obtain ⟨path, found, descends⟩ := inner (rest % size)
      refine ⟨_, by rw [found]; rfl, descends.cons (enters (rest / size) ?_) (Nat.div_add_mod' ..)⟩
      exact Nat.lt_of_not_le (not_or.mp inside).2

theorem descend_descends (place : ty.HasPlace) (rest : Nat) :
    ∃ path, L.descend ty rest = some path ∧ L.Descends ty rest path := by
  induction ty using Ty.induct generalizing rest with
  | step ty ih =>
    cases ty with
    | int | float | unit | ptr | func => exact ⟨_, by rw [descend] <;> simp, .stop fun _ => trivial⟩
    | array elem len =>
      have elemPlace : elem.HasPlace := Ty.hasPlace_array.mp place
      obtain ⟨size, sized⟩ := exists_allocSize? (L := L) elemPlace
      simp only [descend, sized]
      exact descend_elements sized (fun n inside => .element inside sized) (fun _ none_ => none_)
        (ih elem (List.mem_singleton_self elem) elemPlace) rest
    | vector elem len =>
      have elemPlace : elem.HasPlace := Ty.hasPlace_vector.mp place
      obtain ⟨size, sized⟩ := exists_allocSize? (L := L) elemPlace
      simp only [descend, sized]
      exact descend_elements sized (fun n inside => .lane inside sized) (fun _ none_ => none_)
        (ih elem (List.mem_singleton_self elem) elemPlace) rest
    | struct name fields packed =>
      have fieldPlace : ∀ field ∈ fields, field.HasPlace := by simpa using place
      rw [descend]
      split
      next stops =>
        refine ⟨_, rfl, .stop fun some_ n start placed => ?_⟩
        cases stops.resolve_left some_
        simp [fieldOffset?, fieldOffsets?, placeFields] at placed
      next =>
        -- The descent reads all starts at once, the specification one by one.
        have laid : (L.placeFields packed 0 fields).isSome := isSome_placeFields.mpr fun field member =>
          ⟨(isSome_size?_iff field).2 (fieldPlace field member), (isSome_size?_iff field).1.mpr (fieldPlace field member)⟩
        obtain ⟨⟨starts, stop⟩, placed⟩ := Option.isSome_iff_exists.mp laid
        have offsets : L.fieldOffsets? (.struct name fields packed) = some starts := by rw [fieldOffsets?, placed]; rfl
        have at_ (n : Nat) : L.fieldOffset? (.struct name fields packed) n = starts[n]? := by
          rw [fieldOffset?, offsets]
          rfl
        rw [offsets]
        dsimp only
        rcases descendField_cases (L := L) (placeFields_length placed) 0 rest with
          ⟨none_, behind⟩ | ⟨n, field, start, named, first, before, found⟩
        · rw [none_]
          exact ⟨_, rfl, .stop fun _ n start placed => behind start (List.mem_of_getElem? (at_ n ▸ placed))⟩
        · have member := List.mem_of_getElem? named
          obtain ⟨path, inner, descends⟩ := ih field member (fieldPlace field member) (rest - start)
          rw [found, inner, Nat.zero_add]
          exact ⟨_, rfl, descends.cons (.field named ((at_ n).trans first)) (Nat.add_sub_of_le before)⟩

/-- The path of an offset: its first index counts values of the type, and the rest of the path descends into one. -/
theorem path?_descends {size : Nat} (sized : L.allocSize? ty = some size) (offset : Nat) :
    ∃ (first : Nat) (path : TyPath), L.path? ty offset = some (path.cons first) ∧
      ∃ start, L.Leads ty path.indices path.ty start ∧ first * size + start + path.rest = offset ∧
        (path.rest ≠ 0 → L.Ends path.ty path.rest) := by
  have place := hasPlace_of_allocSize? sized
  obtain ⟨path, found, ⟨start, leads, whole⟩, ends⟩ := descend_descends (L := L) place
    (if size = 0 then offset else offset % size)
  refine ⟨_, path, by rw [path?, sized, Option.bind_eq_bind, Option.bind_some, found]; rfl, start, leads, ?_, ends⟩
  rw [Nat.add_assoc, whole]
  split
  next none_ => rw [Nat.zero_mul, Nat.zero_add]
  next => exact Nat.div_add_mod' ..

end VarRecovery.DataLayout
