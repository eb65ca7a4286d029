import VarRecovery.Access.Popularity
import VarRecovery.Proofs.Address
import VarRecovery.Proofs.TypeLayout

/-!
How much a type counts at an address. The search for a part of a declared variable follows one path through its type,
and finds the part whichever path leads to it, as long as no number of the layout passes a word.
-/

set_option autoImplicit false

namespace VarRecovery

theorem Ty.mem_inner_of_rows {ty elem : Ty} {len : Nat} (rows : ty = .array elem len ∨ ty = .vector elem len) :
    elem ∈ ty.inner := by
  rcases rows with rfl | rfl <;> exact List.mem_singleton_self elem

namespace DataLayout

/-- A type is nested in another, so many bytes behind its start. -/
inductive Nested (L : DataLayout) (want : Ty) : Ty → Nat → Prop
  | self : Nested L want want 0
  | element {whole elem : Ty} {len i alloc offset : Nat} (rows : whole = .array elem len ∨ whole = .vector elem len)
      (inside : i < len) (stride : L.allocSize? elem = some alloc) (nested : Nested L want elem offset) :
      Nested L want whole (i * alloc + offset)
  | field {name : String} {fields : List Ty} {packed : Bool} {k start offset : Nat} {field : Ty}
      (found : fields[k]? = some field) (starts : L.fieldOffset? (.struct name fields packed) k = some start)
      (nested : Nested L want field offset) : Nested L want (.struct name fields packed) (start + offset)

/-- The elements of a vector lie where they would in an array. -/
def Unpadded (L : DataLayout) : Ty → Prop
  | .vector elem _ => L.size? elem = L.allocSize? elem
  | _ => True

instance (L : DataLayout) : DecidablePred L.Unpadded
  | .vector elem _ => inferInstanceAs (Decidable (L.size? elem = L.allocSize? elem))
  | .array .. | .struct .. | .int _ | .float _ | .unit | .ptr _ | .func .. => isTrue trivial

def Tight (L : DataLayout) (ty : Ty) : Prop :=
  ∀ part ∈ ty.parts, L.Unpadded part

variable {L : DataLayout} {a : Architecture} {want ty elem : Ty} {fields : List Ty} {starts : List Nat}
variable {offset len : Nat}

/-! ### What the search finds -/

-- Lean derives the equations of the search here, once for all the lemmas below.
attribute [local simp] isNested isNestedField

theorem exists_of_isNestedField (found : L.isNestedField want fields starts offset = some true) :
    ∃ (k : Nat) (field : Ty) (start : Nat), fields[k]? = some field ∧ starts[k]? = some start ∧ start ≤ offset ∧
      L.isNested want field (offset - start) = true := by
  induction fields generalizing starts with
  | nil => simp at found
  | cons field fields ih =>
    cases starts with
    | nil => simp at found
    | cons start starts =>
      rw [isNestedField] at found
      split at found
      next later =>
        cases found
        obtain ⟨k, field, start, rest⟩ := ih later
        exact ⟨k + 1, field, start, rest⟩
      next =>
        split at found
        next le => exact ⟨0, field, start, rfl, rfl, le, Option.some.inj found⟩
        next => cases found

theorem isNestedField_eq_none (behind : ∀ start ∈ starts, offset < start) :
    L.isNestedField want fields starts offset = none := by
  induction fields generalizing starts with
  | nil => simp
  | cons field fields ih =>
    cases starts with
    | nil => simp
    | cons start starts =>
      obtain ⟨here, others⟩ := List.forall_mem_cons.mp behind
      rw [isNestedField, ih others]
      exact if_neg (Nat.not_le.mpr here)

/-- The search goes into the last field that does not start behind the byte. -/
theorem isNestedField_eq_some {k start : Nat} {field : Ty} (found : fields[k]? = some field)
    (known : starts[k]? = some start) (le : start ≤ offset)
    (last : ∀ j other, k < j → starts[j]? = some other → offset < other) :
    L.isNestedField want fields starts offset = some (L.isNested want field (offset - start)) := by
  induction fields generalizing starts k with
  | nil => simp at found
  | cons first fields ih =>
    cases starts with
    | nil => simp at known
    | cons zeroth starts =>
      rw [isNestedField]
      cases k with
      | zero =>
        cases Option.some.inj found
        cases Option.some.inj known
        rw [isNestedField_eq_none fun other member => ?_]
        · exact if_pos le
        · obtain ⟨j, there⟩ := List.mem_iff_getElem?.mp member
          exact last (j + 1) other (Nat.succ_pos j) there
      | succ k =>
        rw [ih found known fun j other behind there => last (j + 1) other (Nat.succ_lt_succ behind) there]

theorem isNested_element (rows : ty = .array elem len ∨ ty = .vector elem len) :
    L.isNested want ty offset = true ↔ (offset = 0 ∧ ty = want) ∨ ∃ alloc, L.allocSize? elem = some alloc ∧
      alloc ≠ 0 ∧ offset / alloc < len ∧ L.isNested want elem (offset % alloc) = true := by
  rcases rows with rfl | rfl <;> cases sized : L.allocSize? elem <;> simp [sized, and_assoc]

theorem isNested_field {name : String} {packed : Bool} :
    L.isNested want (.struct name fields packed) offset = true ↔
      (offset = 0 ∧ .struct name fields packed = want) ∨ ∃ starts,
        L.fieldOffsets? (.struct name fields packed) = some starts ∧
          L.isNestedField want fields starts offset = some true := by
  cases known : L.fieldOffsets? (.struct name fields packed) with
  | none => simp [known]
  | some starts => cases found : L.isNestedField want fields starts offset <;> simp [known, found]

/-- What the search finds is there, whatever the layout. -/
theorem nested_of_isNested (found : L.isNested want ty offset = true) : L.Nested want ty offset := by
  induction ty using Ty.induct generalizing offset with
  | step ty ih =>
    have here (same : offset = 0 ∧ ty = want) : L.Nested want ty offset := by
      obtain ⟨rfl, rfl⟩ := same
      exact .self
    have within {elem : Ty} {len : Nat} (rows : ty = .array elem len ∨ ty = .vector elem len)
        (member : elem ∈ ty.inner) : L.Nested want ty offset := by
      rcases (isNested_element rows).mp found with same | ⟨alloc, stride, -, inside, nested⟩
      · exact here same
      · rw [← Nat.div_add_mod' offset alloc]
        exact .element rows inside stride (ih elem member nested)
    cases ty with
    | array elem len => exact within (.inl rfl) (List.mem_singleton_self elem)
    | vector elem len => exact within (.inr rfl) (List.mem_singleton_self elem)
    | struct name fields packed =>
      rcases isNested_field.mp found with same | ⟨starts, known, nested⟩
      · exact here same
      · obtain ⟨k, field, start, there, begins, le, nested⟩ := exists_of_isNestedField nested
        rw [← Nat.add_sub_of_le le]
        refine .field there ?_ (ih field (List.mem_of_getElem? there) nested)
        simp [fieldOffset?, known, begins]
    | int | float | unit | ptr | func => exact here (by simpa using found)

/-! ### What is there is found -/

/-- The type has a layout that memory can hold, without padding between the elements of vectors. -/
structure Proper (L : DataLayout) (ty : Ty) : Prop where
  place : ty.HasPlace
  fits : L.Fits ty
  tight : L.Tight ty

theorem Proper.inner (proper : L.Proper ty) {part : Ty} (member : part ∈ ty.inner) : L.Proper part where
  place := ((Ty.hasPlace_iff ty).mp proper.place).2 part member
  fits := (fits_iff.mp proper.fits).2 part member
  tight := (Ty.forall_parts.mp proper.tight).2 part member

theorem Proper.regular (proper : (ofArchitecture a).Proper ty) :
    ∃ size align, (ofArchitecture a).Regular ty size align :=
  exists_regular a ty proper.place proper.fits

theorem Proper.stride_le (proper : (ofArchitecture a).Proper ty) (rows : ty = .array elem len ∨ ty = .vector elem len)
    {stride alloc : Nat} (sized : (ofArchitecture a).allocSize? elem = some stride)
    (whole : (ofArchitecture a).allocSize? ty = some alloc) : stride * len ≤ alloc := by
  have stays := (fits_iff.mp proper.fits).1
  obtain ⟨size, align, regular⟩ := (proper.inner (Ty.mem_inner_of_rows rows)).regular
  obtain rfl := Option.some.inj (regular.alloc.symm.trans sized)
  rcases rows with rfl | rfl
  · obtain ⟨array, rounded⟩ := regular.array (stays _ regular.alloc)
    obtain rfl := Option.some.inj (array.alloc.symm.trans whole)
    exact Nat.le_of_eq rounded.symm
  · have vector := regular.vector (stays size regular.sized)
    obtain rfl := Option.some.inj (vector.alloc.symm.trans whole)
    -- A vector is as long as its elements without padding, which here are those of an array.
    have tight := (Ty.forall_parts.mp proper.tight).1
    have same : size = Word.ceil size align := Option.some.inj (regular.sized.symm.trans (tight.trans regular.alloc))
    rw [← same]
    exact Word.le_ceil vector.pos _

theorem Proper.laid {name : String} {packed : Bool} (proper : (ofArchitecture a).Proper (.struct name fields packed)) :
    ∃ offsets stop alloc, (ofArchitecture a).fieldOffsets? (.struct name fields packed) = some offsets ∧
      (ofArchitecture a).Laid packed 0 fields offsets stop ∧
      (ofArchitecture a).allocSize? (.struct name fields packed) = some alloc ∧ stop ≤ alloc := by
  have regularAll (field : Ty) (member : field ∈ fields) : ∃ size align, (ofArchitecture a).Regular field size align :=
    (proper.inner (show field ∈ Ty.inner (.struct name fields packed) from member)).regular
  obtain ⟨size, align, regular, rounded, offsets, stop, placed, laid, le, -⟩ :=
    regular_struct regularAll (fits_iff.mp proper.fits).1
  refine ⟨offsets, stop, Word.ceil size align, ?_, laid, regular.alloc, rounded.symm ▸ le⟩
  rw [fieldOffsets?, placed, Option.map_some]

/-- What is nested in a type does not reach beyond it. -/
theorem Nested.add_le (nested : (ofArchitecture a).Nested want ty offset) (proper : (ofArchitecture a).Proper ty)
    {least alloc : Nat} (own : (ofArchitecture a).allocSize? want = some least)
    (whole : (ofArchitecture a).allocSize? ty = some alloc) : offset + least ≤ alloc := by
  induction nested generalizing alloc with
  | self =>
    cases Option.some.inj (own.symm.trans whole)
    exact Nat.le_of_eq (Nat.zero_add least)
  | @element ty elem len i stride offset rows inside sized _ ih =>
    have within : offset + least ≤ stride := ih (proper.inner (Ty.mem_inner_of_rows rows)) sized
    calc i * stride + offset + least ≤ i * stride + stride := by omega
      _ = stride * (i + 1) := by rw [Nat.mul_succ, Nat.mul_comm]
      _ ≤ stride * len := Nat.mul_le_mul_left stride inside
      _ ≤ alloc := proper.stride_le rows sized whole
  | @field name fields packed k start offset field found starts _ ih =>
    obtain ⟨offsets, stop, _, known, laid, same, le⟩ := proper.laid
    cases Option.some.inj (same.symm.trans whole)
    have part := proper.inner (show field ∈ Ty.inner (.struct name fields packed) from List.mem_of_getElem? found)
    obtain ⟨_, _, regular⟩ := part.regular
    have within := ih part regular.alloc
    have ends := laid.le_stop found regular.alloc (by simpa [fieldOffset?, known] using starts)
    omega

theorem Nested.proper (nested : L.Nested want ty offset) (proper : L.Proper ty) : L.Proper want := by
  induction nested with
  | self => exact proper
  | element rows _ _ _ ih => exact ih (proper.inner (Ty.mem_inner_of_rows rows))
  | field found _ _ ih => exact ih (proper.inner (List.mem_of_getElem? found))

/-- Whichever path leads to a type that takes bytes, the search follows it: all else ends before, or starts behind. -/
theorem Nested.isNested (nested : (ofArchitecture a).Nested want ty offset) (proper : (ofArchitecture a).Proper ty)
    {least : Nat} (own : (ofArchitecture a).allocSize? want = some least) (pos : 0 < least) :
    (ofArchitecture a).isNested want ty offset = true := by
  induction nested with
  | self => cases want <;> simp [DataLayout.isNested]
  | @element ty elem len i stride offset rows inside sized nested ih =>
    -- What is nested ends within its element, so quotient and remainder lead back to it.
    have part := proper.inner (Ty.mem_inner_of_rows rows)
    have within := nested.add_le part own sized
    have step : 0 < stride := by omega
    have below : offset < stride := by omega
    refine (isNested_element rows).mpr (.inr ⟨stride, sized, Nat.ne_of_gt step, ?_, ?_⟩)
    · rwa [Nat.mul_comm, Nat.mul_add_div step, Nat.div_eq_of_lt below]
    · rw [Nat.mul_comm, Nat.mul_add_mod, Nat.mod_eq_of_lt below]
      exact ih part
  | @field name fields packed k start offset field found starts nested ih =>
    obtain ⟨offsets, stop, _, known, laid, -, -⟩ := proper.laid
    have part := proper.inner (show field ∈ Ty.inner (.struct name fields packed) from List.mem_of_getElem? found)
    obtain ⟨_, _, regular⟩ := part.regular
    have within := nested.add_le part own regular.alloc
    replace starts : offsets[k]? = some start := by simpa [fieldOffset?, known] using starts
    -- The field is not empty, so all later ones start behind the byte.
    have last (j other : Nat) (behind : k < j) (there : offsets[j]? = some other) : start + offset < other := by
      have apart := laid.apart behind found regular.alloc starts there
      omega
    refine isNested_field.mpr (.inr ⟨offsets, known, ?_⟩)
    rw [isNestedField_eq_some found starts (Nat.le_add_right start offset) last, Nat.add_sub_cancel_left, ih part]

end DataLayout

namespace Popularity

/-- Where functions of which type are declared, the last one first, and where variables of which type and size. -/
inductive Records (L : DataLayout) (cells : List Cell) :
    List (Nat × Ty) → List (Nat × Ty × Nat) → Popularity → Prop
  | start : Records L cells [] [] (.ofCells cells)
  | addFunction {funcs : List (Nat × Ty)} {vars : List (Nat × Ty × Nat)} {p : Popularity}
      (before : Records L cells funcs vars p) (address : Nat) (ty : Ty) :
      Records L cells ((address, ty) :: funcs) vars (p.declareFunction address ty)
  | addVariable {funcs : List (Nat × Ty)} {vars : List (Nat × Ty × Nat)} {p : Popularity} {address size : Nat}
      {ty : Ty} (before : Records L cells funcs vars p) (new : ∀ e ∈ vars, e.1 ≠ address)
      (sized : L.allocSize? ty = some size) (ends : address + size ≤ maxAddress) :
      Records L cells funcs ((address, ty, size) :: vars) (p.declareVariable address ty size)

/-- A type is that of a function that is declared at an address, or of its address. -/
def IsDeclared (funcs : List (Nat × Ty)) (address : Nat) (ty : Ty) : Prop :=
  ∃ func, funcs.lookup address = some func ∧ (ty = func ∨ ty = .ptr func)

/-- A variable contains an address, where a type is nested in its own. -/
def Contains (L : DataLayout) (e : Nat × Ty × Nat) (address : Nat) (ty : Ty) : Prop :=
  e.1 ≤ address ∧ address < e.1 + e.2.2 ∧ L.Nested ty e.2.1 (address - e.1)

variable {L : DataLayout} {a : Architecture} {cells : List Cell} {funcs : List (Nat × Ty)}
variable {vars : List (Nat × Ty × Nat)} {p : Popularity} {address : Nat} {ty : Ty}

theorem Records.observed_eq (records : Records L cells funcs vars p) :
    p.observed = cells.map fun c => (c.address, c.ty) := by
  induction records with
  | start => rfl
  | addFunction _ _ _ ih | addVariable _ _ _ _ ih => exact ih

theorem Records.count_eq (records : Records L cells funcs vars p) (address : Nat) (ty : Ty) :
    p.count address ty = min (cells.countP fun c => c.address = address ∧ c.ty = ty) maxCount := by
  rw [count, records.observed_eq, List.count, List.countP_map]
  exact congrArg (min · maxCount) (List.countP_congr fun c _ => by simp)

theorem Records.isFunctionAt_iff (records : Records L cells funcs vars p) :
    p.isFunctionAt address ty = true ↔ IsDeclared funcs address ty := by
  have found : p.funcs.find? address = funcs.lookup address := by
    induction records with
    | start => rfl
    | addFunction _ other _ ih =>
      rw [declareFunction, AddressMap.find?_insert, List.lookup_cons, ih]
      by_cases here : address = other <;> simp [here, beq_eq_false_iff_ne.mpr]
    | addVariable _ _ _ _ ih => exact ih
  rw [isFunctionAt, found, IsDeclared]
  cases funcs.lookup address <;> simp

/-- Each variable is recorded, and is no larger than the largest. -/
theorem Records.vars_spec (records : Records L cells funcs vars p) :
    (∀ e, e ∈ p.vars.entries ↔ e ∈ vars) ∧
      ∀ e ∈ vars, e.2.2 ≤ p.maxVariableSize ∧ L.allocSize? e.2.1 = some e.2.2 ∧ e.1 + e.2.2 ≤ maxAddress := by
  induction records with
  | start => exact ⟨fun _ => Iff.rfl, nofun⟩
  | addFunction _ _ _ ih => exact ih
  | addVariable _ new sized ends ih =>
    obtain ⟨entries, known⟩ := ih
    refine ⟨fun e => ?_, List.forall_mem_cons.mpr ⟨⟨Nat.le_max_right _ _, sized, ends⟩, fun e member => ?_⟩⟩
    · rw [declareVariable, AddressMap.mem_entries_insert, List.mem_cons, entries]
      exact or_congr_right (and_iff_left_of_imp (new e))
    · obtain ⟨small, rest⟩ := known e member
      exact ⟨Nat.le_trans small (Nat.le_max_left _ _), rest⟩

theorem Records.isPartAt_iff (records : Records L cells funcs vars p) : p.isPartAt L address ty = true ↔
    ∃ e ∈ vars, e.1 ≤ address ∧ address < e.1 + e.2.2 ∧ L.isNested ty e.2.1 (address - e.1) = true := by
  obtain ⟨entries, known⟩ := records.vars_spec
  have word (e : Nat × Ty × Nat) (member : e ∈ vars) : Word.wrap (e.1 + e.2.2) = e.1 + e.2.2 :=
    Word.wrap_of_lt (Nat.lt_succ_of_le (known e member).2.2)
  simp only [isPartAt, List.any_eq_true, AddressMap.mem_between, entries, Bool.and_eq_true, decide_eq_true_eq]
  refine exists_congr fun e => ⟨?_, ?_⟩
  · rintro ⟨⟨member, -, le⟩, below, nested⟩
    exact ⟨member, le, word e member ▸ below, nested⟩
  · rintro ⟨member, le, below, nested⟩
    -- No variable is larger than the largest, so this one starts where the search looks.
    have small := (known e member).1
    exact ⟨⟨member, by omega, le⟩, (word e member).symm ▸ below, nested⟩

theorem Records.proper (records : Records L cells funcs vars p) {e : Nat × Ty × Nat} (member : e ∈ vars)
    (fits : L.Fits e.2.1) (tight : L.Tight e.2.1) : L.Proper e.2.1 := by
  obtain ⟨size, align, sized, -⟩ := DataLayout.allocSize?_some (records.vars_spec.2 e member).2.1
  exact ⟨(DataLayout.isSome_size?_iff e.2.1).1.mp (Option.isSome_of_eq_some sized), fits, tight⟩

/-- A byte, entries with padding in them, nothing, and a number. -/
def entryTable : Ty :=
  .struct "table" [.i8, .array (.struct "entry" [.i32, .i64] false) 3, .array .i8 0, .i64] false

/-- An array that fills the memory takes no bytes, and hides its elements behind the field that follows. -/
def hugeArray : Ty :=
  .struct "s" [.array .i32 0x4000000000000000, .i64, .i64] false

end Popularity

end VarRecovery
