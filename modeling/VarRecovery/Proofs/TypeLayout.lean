import Mathlib.Order.Bounds.Defs
import VarRecovery.Proofs.DataLayout

/-!
The layout of types as long as no size passes a word: which types have one, how a type is aligned and padded, and how
the fields of a struct lie in it.
-/

set_option autoImplicit false

namespace VarRecovery

namespace Word

/-- The least multiple of `a` that is not below `n`. -/
def ceil (n a : Nat) : Nat :=
  (n + a - 1) / a * a

variable {n a b : Nat}

theorem roundUp_of_lt (fits : ceil n a < count) : roundUp n a = ceil n a :=
  wrap_of_lt fits

theorem isLeast_ceil (pos : 0 < a) (n : Nat) : IsLeast {k | a ∣ k ∧ n ≤ k} (ceil n a) := by
  have parts := Nat.div_add_mod (n + a - 1) a
  have small := Nat.mod_lt (n + a - 1) pos
  have same : ceil n a = a * ((n + a - 1) / a) := Nat.mul_comm _ _
  refine ⟨⟨Nat.dvd_mul_left a _, by omega⟩, ?_⟩
  rintro _ ⟨⟨q, rfl⟩, le⟩
  rw [same]
  refine Nat.mul_le_mul_left a (Nat.le_of_lt_succ ((Nat.div_lt_iff_lt_mul pos).mpr ?_))
  rw [Nat.succ_mul, Nat.mul_comm q]
  omega

theorem le_ceil (pos : 0 < a) (n : Nat) : n ≤ ceil n a :=
  (isLeast_ceil pos n).1.2

theorem ceil_of_dvd (pos : 0 < a) (divides : a ∣ n) : ceil n a = n :=
  Nat.le_antisymm ((isLeast_ceil pos n).2 ⟨divides, Nat.le_refl n⟩) (le_ceil pos n)

end Word

namespace Ty

/-- The types that a type has values of in it. -/
def inner : Ty → List Ty
  | .array elem _ | .vector elem _ => [elem]
  | .struct _ fields _ => fields
  | _ => []

mutual

/-- A type and all that it has values of in it, at any depth. What pointers point to lies elsewhere. -/
def parts : Ty → List Ty
  | .array elem len => .array elem len :: elem.parts
  | .vector elem len => .vector elem len :: elem.parts
  | .struct name fields packed => .struct name fields packed :: partsOfAll fields
  | ty => [ty]

def partsOfAll : List Ty → List Ty
  | [] => []
  | ty :: tys => ty.parts ++ partsOfAll tys

end

theorem partsOfAll_eq (tys : List Ty) : partsOfAll tys = tys.flatMap parts := by
  induction tys with
  | nil => rfl
  | cons ty tys ih => rw [partsOfAll, ih, List.flatMap_cons]

theorem parts_eq (ty : Ty) : ty.parts = ty :: ty.inner.flatMap parts := by
  cases ty <;> simp [parts, inner, partsOfAll_eq]

theorem forall_parts {P : Ty → Prop} {ty : Ty} :
    (∀ part ∈ ty.parts, P part) ↔ P ty ∧ ∀ other : Ty, other ∈ ty.inner → ∀ part ∈ other.parts, P part := by
  rw [parts_eq, List.forall_mem_cons, List.forall_mem_flatMap]

theorem sizeOf_of_mem_inner {ty part : Ty} (member : part ∈ ty.inner) : sizeOf part < sizeOf ty := by
  cases ty with
  | array | vector =>
    cases List.mem_singleton.mp member
    simp only [array.sizeOf_spec, vector.sizeOf_spec]
    omega
  | struct name fields packed =>
    have := List.sizeOf_lt_of_mem (show part ∈ fields from member)
    simp only [struct.sizeOf_spec]
    omega
  | _ => cases member

/-- What holds of a type whenever it holds of what is in it holds of all types. -/
theorem induct {P : Ty → Prop} (step : ∀ ty : Ty, (∀ part ∈ ty.inner, P part) → P ty) (ty : Ty) : P ty :=
  step ty fun part member =>
    have := sizeOf_of_mem_inner member
    induct step part
termination_by sizeOf ty

/-- Neither the unit type nor a function is in the type. -/
def HasPlace (ty : Ty) : Prop :=
  ∀ part ∈ ty.parts, part ≠ .unit ∧ part.isFunc = false

theorem hasPlace_iff (ty : Ty) :
    ty.HasPlace ↔ (ty ≠ .unit ∧ ty.isFunc = false) ∧ ∀ part ∈ ty.inner, part.HasPlace :=
  forall_parts

@[simp] theorem hasPlace_array {elem : Ty} {len : Nat} : (array elem len).HasPlace ↔ elem.HasPlace := by
  simp [hasPlace_iff (array elem len), inner, isFunc]

@[simp] theorem hasPlace_vector {elem : Ty} {len : Nat} : (vector elem len).HasPlace ↔ elem.HasPlace := by
  simp [hasPlace_iff (vector elem len), inner, isFunc]

@[simp] theorem hasPlace_struct {name : String} {fields : List Ty} {packed : Bool} :
    (struct name fields packed).HasPlace ↔ ∀ field ∈ fields, field.HasPlace := by
  simp [hasPlace_iff (struct name fields packed), inner, isFunc]

end Ty

namespace DataLayout

variable {L : DataLayout} {a : Architecture} {ty : Ty} {fields : List Ty} {packed : Bool} {start stop : Nat}

/-- Where the last of some fields ends, however large that number is. -/
def exactStop? (L : DataLayout) (packed : Bool) : Nat → List Ty → Option Nat
  | stop, [] => some stop
  | stop, ty :: tys => do
    let align ← L.align? ty
    let alloc ← L.allocSize? ty
    exactStop? L packed ((if packed then stop else Word.ceil stop align) + alloc) tys

/-- The numbers of the layout of a type do not pass a word, if those of the types in it do not. -/
def StaysInWord (L : DataLayout) : Ty → Prop
  | .array elem len => ∀ alloc ∈ L.allocSize? elem, alloc * len < Word.count
  -- A larger vector would have to be aligned to a power of two that no word holds.
  | .vector elem len => ∀ size ∈ L.size? elem, size * len ≤ 0x8000000000000000
  | .struct name fields packed =>
    ∀ stop ∈ L.exactStop? packed 0 fields, ∀ align ∈ L.align? (.struct name fields packed),
      Word.ceil stop align < Word.count
  | _ => True

instance (L : DataLayout) : DecidablePred L.StaysInWord
  | .array elem len => inferInstanceAs (Decidable (∀ alloc ∈ L.allocSize? elem, alloc * len < Word.count))
  | .vector elem len => inferInstanceAs (Decidable (∀ size ∈ L.size? elem, size * len ≤ 0x8000000000000000))
  | .struct name fields packed => inferInstanceAs (Decidable (∀ stop ∈ L.exactStop? packed 0 fields,
      ∀ align ∈ L.align? (.struct name fields packed), Word.ceil stop align < Word.count))
  | .int _ | .float _ | .unit | .ptr _ | .func .. => isTrue trivial

/-- No number that comes up in the layout of a type passes a word. -/
def Fits (L : DataLayout) (ty : Ty) : Prop :=
  ∀ part ∈ ty.parts, L.StaysInWord part

theorem fits_iff : L.Fits ty ↔ L.StaysInWord ty ∧ ∀ part ∈ ty.inner, L.Fits part :=
  Ty.forall_parts

/-! ### Which types have a layout -/

theorem isSome_maxAlign (all : ∀ ty ∈ fields, (L.align? ty).isSome) : (L.maxAlign fields).isSome := by
  induction fields with
  | nil => rfl
  | cons ty tys ih =>
    obtain ⟨here, others⟩ := List.forall_mem_cons.mp all
    obtain ⟨align, known⟩ := Option.isSome_iff_exists.mp here
    obtain ⟨most, rest⟩ := Option.isSome_iff_exists.mp (ih others)
    simp [maxAlign, known, rest]

theorem isSome_placeFields : (L.placeFields packed start fields).isSome ↔
    ∀ ty ∈ fields, (L.align? ty).isSome ∧ (L.size? ty).isSome := by
  induction fields generalizing start with
  | nil => simp [placeFields]
  | cons ty tys ih =>
    rw [List.forall_mem_cons]
    cases aligned : L.align? ty with
    | none => simp [placeFields, aligned]
    | some align =>
      cases sized : L.size? ty with
      | none => simp [placeFields, aligned, sized]
      | some size =>
        have rest := @ih (Word.wrap ((if packed then start else Word.roundUp start align) + Word.roundUp size align))
        rw [← Option.isSome_map (f := Prod.fst)] at rest
        simp only [placeFields, aligned, sized, bind, Option.bind_some, Option.isSome_some, and_self, true_and]
        rw [← rest]
        cases L.placeFields packed _ tys <;> rfl

/-- A type has a size exactly if it has a place in memory, and then it has an alignment too. -/
theorem isSome_size?_iff (ty : Ty) :
    ((L.size? ty).isSome ↔ ty.HasPlace) ∧ (ty.HasPlace → (L.align? ty).isSome) := by
  induction ty using Ty.induct with
  | step ty ih =>
    cases ty with
    | int | ptr => simp [size?, align?, Ty.HasPlace, Ty.parts, Ty.isFunc]
    | float width => cases width <;> simp [size?, align?, Ty.HasPlace, Ty.parts, Ty.isFunc]
    | unit | func => simp [size?, Ty.HasPlace, Ty.parts, Ty.isFunc]
    | array elem len =>
      obtain ⟨sized, aligned⟩ := ih elem (List.mem_singleton_self elem)
      have same : (L.size? (.array elem len)).isSome ↔ (L.size? elem).isSome ∧ (L.align? elem).isSome := by
        cases one : L.size? elem <;> cases two : L.align? elem <;> simp [size?, one, two]
      rw [same, sized, Ty.hasPlace_array, align?]
      exact ⟨⟨And.left, fun place => ⟨place, aligned place⟩⟩, aligned⟩
    | vector elem len =>
      obtain ⟨sized, -⟩ := ih elem (List.mem_singleton_self elem)
      rw [Ty.hasPlace_vector, ← sized]
      cases one : L.size? elem <;> simp [size?, align?, one]
    | struct name fields packed =>
      have place (start : Nat) : (L.placeFields packed start fields).isSome ↔ ∀ field ∈ fields, field.HasPlace := by
        rw [isSome_placeFields]
        refine forall₂_congr fun field member => ?_
        obtain ⟨sized, aligned⟩ := ih field member
        exact ⟨fun both => sized.mp both.2, fun place => ⟨aligned place, sized.mpr place⟩⟩
      have most (all : ∀ field ∈ fields, field.HasPlace) : (L.maxAlign fields).isSome :=
        isSome_maxAlign fun field member => (ih field member).2 (all field member)
      rw [Ty.hasPlace_struct]
      refine ⟨⟨fun sized => (place 0).mp ?_, fun all => ?_⟩, fun all => ?_⟩
      · cases placed : L.placeFields packed 0 fields with
        | some => rfl
        | none => simp [size?, placed] at sized
      · obtain ⟨⟨offsets, stop⟩, placed⟩ := Option.isSome_iff_exists.mp ((place 0).mpr all)
        obtain ⟨align, strictest⟩ := Option.isSome_iff_exists.mp (most all)
        cases packed <;> simp [size?, placed, strictest]
      · cases packed <;> simp [align?, most all]

/-! ### Where the fields of a struct lie -/

/-- Where the fields of a struct begin that lie behind the byte `start`, and where the last of them ends. -/
inductive Laid (L : DataLayout) (packed : Bool) : Nat → List Ty → List Nat → Nat → Prop
  | nil {start : Nat} : Laid L packed start [] [] start
  | cons {start align alloc offset stop : Nat} {ty : Ty} {tys : List Ty} {offsets : List Nat}
      (aligned : L.align? ty = some align) (sized : L.allocSize? ty = some alloc)
      (closest : if packed then offset = start else IsLeast {k | align ∣ k ∧ start ≤ k} offset)
      (others : Laid L packed (offset + alloc) tys offsets stop) :
      Laid L packed start (ty :: tys) (offset :: offsets) stop

namespace Laid

variable {tys : List Ty} {offsets : List Nat} {i j offset other alloc : Nat}

theorem start_le_offset {align : Nat}
    (closest : if packed then offset = start else IsLeast {k | align ∣ k ∧ start ≤ k} offset) : start ≤ offset := by
  cases packed with
  | true => exact Nat.le_of_eq closest.symm
  | false => exact closest.1.2

theorem start_le_stop (laid : Laid L packed start tys offsets stop) : start ≤ stop := by
  induction laid with
  | nil => exact Nat.le_refl _
  | cons _ _ closest _ ih =>
    have := start_le_offset closest
    omega

theorem length_eq (laid : Laid L packed start tys offsets stop) : offsets.length = tys.length := by
  induction laid with
  | nil => rfl
  | cons _ _ _ _ ih => simp [ih]

theorem start_le (laid : Laid L packed start tys offsets stop) (found : offsets[i]? = some offset) :
    start ≤ offset := by
  induction laid generalizing i with
  | nil => simp at found
  | cons _ _ closest _ ih =>
    have before := start_le_offset closest
    cases i with
    | zero =>
      cases Option.some.inj found
      exact before
    | succ i =>
      have := ih found
      omega

theorem le_stop (laid : Laid L packed start tys offsets stop) (field : tys[i]? = some ty)
    (sized : L.allocSize? ty = some alloc) (found : offsets[i]? = some offset) : offset + alloc ≤ stop := by
  induction laid generalizing i with
  | nil => simp at found
  | cons _ same _ others ih =>
    cases i with
    | zero =>
      cases Option.some.inj field
      cases Option.some.inj found
      cases Option.some.inj (same.symm.trans sized)
      exact others.start_le_stop
    | succ i => exact ih field found

/-- The bytes of a field end before those of the fields behind it begin. -/
theorem apart (laid : Laid L packed start tys offsets stop) (before : i < j) (field : tys[i]? = some ty)
    (sized : L.allocSize? ty = some alloc) (found : offsets[i]? = some offset) (behind : offsets[j]? = some other) :
    offset + alloc ≤ other := by
  induction laid generalizing i j with
  | nil => simp at found
  | cons _ same _ others ih =>
    obtain ⟨j, rfl⟩ := Nat.exists_eq_succ_of_ne_zero (Nat.ne_of_gt (Nat.zero_lt_of_lt before))
    cases i with
    | zero =>
      cases Option.some.inj field
      cases Option.some.inj found
      cases Option.some.inj (same.symm.trans sized)
      exact others.start_le behind
    | succ i => exact ih (Nat.lt_of_succ_lt_succ before) field found behind

end Laid

theorem vectorAlign_power {size : Nat} (inWord : size ≤ 0x8000000000000000) : vectorAlign size ∈ [1, 2, 4, 8, 16] := by
  unfold vectorAlign
  repeat' split
  all_goals decide

/-- A type whose size and alignment are what memory takes. -/
structure Regular (L : DataLayout) (ty : Ty) (size align : Nat) : Prop where
  sized : L.size? ty = some size
  aligned : L.align? ty = some align
  power : align ∈ [1, 2, 4, 8, 16]
  inWord : Word.ceil size align < Word.count

namespace Regular

variable {size align len : Nat}

theorem pos (regular : L.Regular ty size align) : 0 < align := by
  have := regular.power
  simp only [List.mem_cons, List.not_mem_nil, or_false] at this
  omega

theorem alloc (regular : L.Regular ty size align) : L.allocSize? ty = some (Word.ceil size align) := by
  simp [allocSize?, regular.sized, regular.aligned, Word.roundUp_of_lt regular.inWord]

theorem array (regular : L.Regular ty size align) (inWord : Word.ceil size align * len < Word.count) :
    L.Regular (.array ty len) (Word.ceil size align * len) align ∧
      Word.ceil (Word.ceil size align * len) align = Word.ceil size align * len := by
  have multiple : align ∣ Word.ceil size align * len :=
    Nat.dvd_mul_right_of_dvd (Word.isLeast_ceil regular.pos size).1.1 len
  have rounded := Word.ceil_of_dvd regular.pos multiple
  refine ⟨⟨?_, regular.aligned, regular.power, rounded.symm ▸ inWord⟩, rounded⟩
  simp [size?, regular.sized, regular.aligned, Word.roundUp_of_lt regular.inWord, Word.wrap_of_lt inWord]

theorem vector (regular : L.Regular ty size align) (inWord : size * len ≤ 0x8000000000000000) :
    L.Regular (.vector ty len) (size * len) (vectorAlign (size * len)) := by
  have fits : size * len < Word.count := Nat.lt_of_le_of_lt inWord (by decide)
  refine ⟨by simp [size?, regular.sized, Word.wrap_of_lt fits],
    by simp [align?, regular.sized, Word.wrap_of_lt fits], vectorAlign_power inWord, ?_⟩
  -- The alignment adds 15 bytes at most.
  have power := vectorAlign_power inWord
  simp only [List.mem_cons, List.not_mem_nil, or_false] at power
  have parts := Nat.div_mul_le_self (size * len + vectorAlign (size * len) - 1) (vectorAlign (size * len))
  have count : Word.count = 0x10000000000000000 := rfl
  unfold Word.ceil
  omega

end Regular

theorem dvd_of_powers {one other : Nat} (small : one ∈ [1, 2, 4, 8, 16]) (large : other ∈ [1, 2, 4, 8, 16])
    (le : one ≤ other) : one ∣ other := by
  simp only [List.mem_cons, List.not_mem_nil, or_false] at small large
  rcases small with rfl | rfl | rfl | rfl | rfl <;> rcases large with rfl | rfl | rfl | rfl | rfl <;> omega

theorem maxAlign_power (all : ∀ ty ∈ fields, ∃ size align, L.Regular ty size align) :
    ∃ most, L.maxAlign fields = some most ∧ most ∈ [1, 2, 4, 8, 16] ∧
      ∀ ty ∈ fields, ∀ align ∈ L.align? ty, align ∣ most := by
  induction fields with
  | nil => exact ⟨1, rfl, by decide, nofun⟩
  | cons ty tys ih =>
    obtain ⟨⟨size, align, regular⟩, others⟩ := List.forall_mem_cons.mp all
    obtain ⟨most, strictest, power, divides⟩ := ih others
    have larger : max align most ∈ [1, 2, 4, 8, 16] := by
      rcases Nat.le_total align most with le | le
      · rw [Nat.max_eq_right le]
        exact power
      · rw [Nat.max_eq_left le]
        exact regular.power
    refine ⟨max align most, by simp [maxAlign, regular.aligned, strictest], larger, ?_⟩
    rw [List.forall_mem_cons]
    refine ⟨fun own same => ?_, fun other member own same => ?_⟩
    · cases Option.some.inj (regular.aligned.symm.trans same)
      exact dvd_of_powers regular.power larger (Nat.le_max_left _ _)
    · exact Nat.dvd_trans (divides other member own same) (dvd_of_powers power larger (Nat.le_max_right _ _))

theorem placeFields_laid (all : ∀ ty ∈ fields, ∃ size align, L.Regular ty size align)
    (ends : L.exactStop? packed start fields = some stop) (inWord : stop < Word.count) :
    ∃ offsets, L.placeFields packed start fields = some (offsets, stop) ∧ L.Laid packed start fields offsets stop := by
  induction fields generalizing start with
  | nil =>
    cases Option.some.inj ends
    exact ⟨[], rfl, .nil⟩
  | cons ty tys ih =>
    obtain ⟨⟨size, align, regular⟩, others⟩ := List.forall_mem_cons.mp all
    simp only [exactStop?, regular.aligned, regular.alloc, bind, Option.bind_some] at ends
    generalize chosen : (if packed then start else Word.ceil start align) = offset at ends
    obtain ⟨offsets, placed, laid⟩ := ih others ends
    -- The numbers only grow from field to field, so they all fit if the last one does.
    have grows := laid.start_le_stop
    have own : (if packed then start else Word.roundUp start align) = offset := by
      cases packed with
      | true => exact chosen
      | false =>
        replace chosen : Word.ceil start align = offset := chosen
        exact (Word.roundUp_of_lt (by omega)).trans chosen
    refine ⟨offset :: offsets, ?_, .cons regular.aligned regular.alloc ?_ laid⟩
    · simp only [placeFields, regular.aligned, regular.sized, bind, Option.bind_some, own,
        Word.roundUp_of_lt regular.inWord, Word.wrap_of_lt (Nat.lt_of_le_of_lt grows inWord), placed]
      rfl
    · cases packed with
      | true => exact chosen.symm
      | false => exact (show _ = offset from chosen) ▸ Word.isLeast_ceil regular.pos start

theorem isSome_exactStop? (all : ∀ ty ∈ fields, ∃ size align, L.Regular ty size align) :
    (L.exactStop? packed start fields).isSome := by
  induction fields generalizing start with
  | nil => rfl
  | cons ty tys ih =>
    obtain ⟨⟨size, align, regular⟩, others⟩ := List.forall_mem_cons.mp all
    simp only [exactStop?, regular.aligned, regular.alloc, bind, Option.bind_some]
    exact ih others

theorem regular_struct {name : String} (all : ∀ ty ∈ fields, ∃ size align, L.Regular ty size align)
    (stays : L.StaysInWord (.struct name fields packed)) :
    ∃ size align, L.Regular (.struct name fields packed) size align ∧ Word.ceil size align = size ∧
      ∃ offsets stop, L.placeFields packed 0 fields = some (offsets, stop) ∧ L.Laid packed 0 fields offsets stop ∧
        stop ≤ size ∧ (packed = false → ∀ ty ∈ fields, ∀ own ∈ L.align? ty, own ∣ align) := by
  have placed : (L.exactStop? packed 0 fields).isSome := isSome_exactStop? all
  obtain ⟨stop, ends⟩ := Option.isSome_iff_exists.mp placed
  obtain ⟨most, strictest, power, divides⟩ := maxAlign_power all
  obtain ⟨align, aligned, powerful, same⟩ : ∃ align, L.align? (.struct name fields packed) = some align ∧
      align ∈ [1, 2, 4, 8, 16] ∧ if packed then align = 1 else align = most := by
    cases packed with
    | true => exact ⟨1, rfl, by decide, rfl⟩
    | false => exact ⟨most, strictest, power, rfl⟩
  have positive : 0 < align := by
    simp only [List.mem_cons, List.not_mem_nil, or_false] at powerful
    omega
  have fits : Word.ceil stop align < Word.count := stays stop ends align aligned
  have le := Word.le_ceil positive stop
  have rounded : Word.ceil (Word.ceil stop align) align = Word.ceil stop align :=
    Word.ceil_of_dvd positive (Word.isLeast_ceil positive stop).1.1
  obtain ⟨offsets, placed, laid⟩ := placeFields_laid all ends (by omega)
  refine ⟨Word.ceil stop align, align, ⟨?_, aligned, powerful, rounded.symm ▸ fits⟩, rounded,
    offsets, stop, placed, laid, le, ?_⟩
  · cases packed with
    | true =>
      cases same
      simp [size?, placed, Word.ceil_of_dvd positive (Nat.one_dvd stop)]
    | false =>
      cases same
      simp [size?, placed, strictest, Word.roundUp_of_lt fits]
  · rintro rfl field member own found
    cases same
    exact divides field member own found

/-- Types that fit into memory, with a place in it, are regular. -/
theorem exists_regular (a : Architecture) (ty : Ty) (place : ty.HasPlace) (fits : (ofArchitecture a).Fits ty) :
    ∃ size align, (ofArchitecture a).Regular ty size align := by
  induction ty using Ty.induct with
  | step ty ih =>
    obtain ⟨stays, fits⟩ := fits_iff.mp fits
    obtain ⟨own, place⟩ := (Ty.hasPlace_iff _).mp place
    replace ih (part : Ty) (member : part ∈ ty.inner) := ih part member (place part member) (fits part member)
    cases ty with
    | unit | func => simp [Ty.isFunc] at own
    | int width => exact ⟨_, _, rfl, rfl, by cases a <;> cases width <;> decide, by cases a <;> cases width <;> decide⟩
    | float width => cases width <;> exact ⟨_, _, rfl, rfl, by cases a <;> decide, by cases a <;> decide⟩
    | ptr => exact ⟨_, _, rfl, rfl, by cases a <;> decide, by cases a <;> decide⟩
    | array elem len =>
      obtain ⟨size, align, regular⟩ := ih elem (List.mem_singleton_self elem)
      obtain ⟨regular, -⟩ := regular.array (stays _ regular.alloc)
      exact ⟨_, _, regular⟩
    | vector elem len =>
      obtain ⟨size, align, regular⟩ := ih elem (List.mem_singleton_self elem)
      exact ⟨_, _, regular.vector (stays size regular.sized)⟩
    | struct name fields packed =>
      obtain ⟨size, align, regular, -⟩ := regular_struct ih stays
      exact ⟨size, align, regular⟩

/-- What the fields of a struct have to do in memory. -/
structure LaysOut (L : DataLayout) (name : String) (fields : List Ty) (packed : Bool) (size align : Nat) : Prop where
  found : ∀ i < fields.length, (L.fieldOffset? (.struct name fields packed) i).isSome
  chained : ∃ offsets stop, L.fieldOffsets? (.struct name fields packed) = some offsets ∧
    L.Laid packed 0 fields offsets stop
  apart : ∀ i j field alloc offset other, i < j → fields[i]? = some field → L.allocSize? field = some alloc →
    L.fieldOffset? (.struct name fields packed) i = some offset →
    L.fieldOffset? (.struct name fields packed) j = some other → offset + alloc ≤ other
  inside : ∀ i field alloc offset, fields[i]? = some field → L.allocSize? field = some alloc →
    L.fieldOffset? (.struct name fields packed) i = some offset → offset + alloc ≤ size
  aligned : packed = false → ∀ field ∈ fields, ∀ own ∈ L.align? field, own ∣ align

/-- A byte, a vector, packed records and a pointer to a function. -/
def nestedRecord : Ty :=
  .struct "node" [.i8, .vector .f32 3, .array (.struct "entry" [.i16, .f80] true) 5, .ptr (.func [] .unit)] false

end DataLayout

end VarRecovery
