import VarRecovery.Proofs.DataLayout
import VarRecovery.Region.FieldList
import Mathlib.Tactic.Set

/-!
Fields one behind the other, and the packed struct of them. The struct has its fields where the list has
them exactly if each of them stores all the bytes it takes: a list goes on behind the bytes that are
stored, a struct behind those that are taken.
-/

set_option autoImplicit false

namespace VarRecovery.FieldList

/-- Fields without a gap from `start` to `stop`. A field ends behind the bytes that its type stores, or
takes if those are fewer. -/
def Spans (L : DataLayout) : Nat → List (Nat × Ty) → Nat → Prop
  | start, [], stop => stop = start
  | start, (address, ty) :: fields, stop =>
    address = start ∧ ∃ size, L.size? ty = some size ∧ ∃ alloc, L.allocSize? ty = some alloc ∧
      Spans L (start + min size alloc) fields stop

section Spans

variable {L : DataLayout} {start mid stop : Nat} {fields later : List (Nat × Ty)}

theorem Spans.append (first : Spans L start fields mid) (second : Spans L mid later stop) :
    Spans L start (fields ++ later) stop := by
  induction fields generalizing start with
  | nil => exact (show mid = start from first) ▸ second
  | cons field rest ih =>
    obtain ⟨here, size, hasSize, alloc, hasAlloc, behind⟩ := first
    exact ⟨here, size, hasSize, alloc, hasAlloc, ih behind⟩

theorem Spans.le (spans : Spans L start fields stop) : start ≤ stop := by
  induction fields generalizing start with
  | nil => exact Nat.le_of_eq (Eq.symm spans)
  | cons field rest ih =>
    obtain ⟨-, size, -, alloc, -, behind⟩ := spans
    have := ih behind
    omega

theorem Spans.first (spans : Spans L start fields stop) (base : Nat) :
    (fields.map (·.1 - base)).headD (stop - base) = start - base := by
  cases fields with
  | nil => exact congrArg (· - base) spans
  | cons field rest => exact congrArg (· - base) spans.1

theorem Spans.exists_placeFields (spans : Spans L start fields stop) (offset : Nat) :
    ∃ offsets last, L.placeFields true offset (fields.map Prod.snd) = some (offsets, last) ∧
      offsets.headD last = offset := by
  induction fields generalizing start offset with
  | nil => exact ⟨[], offset, by simp [DataLayout.placeFields], rfl⟩
  | cons field rest ih =>
    obtain ⟨-, size, -, alloc, hasAlloc, behind⟩ := spans
    obtain ⟨offsets, last, placed, -⟩ := ih behind (Word.wrap (offset + alloc))
    refine ⟨offset :: offsets, last, ?_, rfl⟩
    rw [List.map_cons, DataLayout.placeFields_cons_packed hasAlloc, placed]
    rfl

theorem Spans.placeFields (base offset : Nat) (spans : Spans L (base + offset) fields stop)
    (fits : stop < Word.count) :
    ∃ offsets last, L.placeFields true offset (fields.map Prod.snd) = some (offsets, last) ∧
      ((offsets = fields.map (·.1 - base) ∧ last = stop - base) ↔
        ∀ field ∈ fields, L.Fills field.2) := by
  induction fields generalizing offset with
  | nil =>
    have last : stop = base + offset := spans
    refine ⟨[], offset, by simp [DataLayout.placeFields], ?_⟩
    simp [last]
  | cons field rest ih =>
    obtain ⟨address, ty⟩ := field
    obtain ⟨rfl, size, hasSize, alloc, hasAlloc, behind⟩ := spans
    have whole := behind.le
    have small := DataLayout.allocSize?_lt hasAlloc
    rw [Nat.add_assoc] at behind
    -- Only behind a field that fills its bytes does the next one start where the list has it.
    by_cases fills : alloc ≤ size
    · obtain ⟨offsets, last, placed, agree⟩ := ih (offset + min size alloc) behind
      have next : Word.wrap (offset + alloc) = offset + min size alloc := by
        rw [Word.wrap_of_lt (by omega), Nat.min_eq_right fills]
      refine ⟨offset :: offsets, last, ?_, ?_⟩
      · rw [List.map_cons, DataLayout.placeFields_cons_packed hasAlloc, next, placed]
        rfl
      · have self : L.Fills ty := ⟨size, hasSize, alloc, hasAlloc, fills⟩
        simpa [self] using agree
    · obtain ⟨offsets, last, placed, first⟩ := behind.exists_placeFields (Word.wrap (offset + alloc))
      refine ⟨offset :: offsets, last, ?_, ?_⟩
      · rw [List.map_cons, DataLayout.placeFields_cons_packed hasAlloc, placed]
        rfl
      constructor
      · rintro ⟨same, stops⟩
        have next := behind.first base
        rw [← (List.cons.inj same).2, ← stops, first] at next
        simp only [Word.wrap, Word.count] at next small fits
        omega
      · intro all
        obtain ⟨other, hasOther, taken, hasTaken, fits⟩ := all (base + offset, ty) List.mem_cons_self
        simp only [hasSize, hasAlloc, Option.some.injEq] at hasOther hasTaken
        omega

end Spans

/-! ### Placing fields -/

/-- How many bytes an access of a type takes: code is accessed by its address. -/
def Takes (L : DataLayout) (ty : Ty) (size : Nat) : Prop :=
  if ty.isFunc then size = L.pointerBytes else L.allocSize? ty = some size

instance (L : DataLayout) (ty : Ty) (size : Nat) : Decidable (Takes L ty size) :=
  inferInstanceAs (Decidable (if ty.isFunc then size = L.pointerBytes else L.allocSize? ty = some size))

section Placing

variable {a : Architecture} {l : FieldList} {ty : Ty} {size : Nat}

theorem Takes.placed (takes : Takes (.ofArchitecture a) ty size) :
    (DataLayout.ofArchitecture a).size? ty.placed = some (storedBytes (.ofArchitecture a) ty size) ∧
      (DataLayout.ofArchitecture a).allocSize? ty.placed = some size := by
  unfold Takes at takes
  split at takes
  next code =>
    obtain ⟨args, ret, rfl⟩ : ∃ args ret, ty = .func args ret := by
      cases ty <;> simp_all [Ty.isFunc]
    subst takes
    simp [Ty.placed, storedBytes, Ty.isFunc, DataLayout.size?, DataLayout.allocSize?_ptr]
  next data =>
    have same : ty.placed = ty := by
      cases ty <;> simp_all [Ty.isFunc, Ty.placed]
    obtain ⟨stored, align, hasSize, -, -⟩ := DataLayout.allocSize?_some takes
    simp [same, storedBytes, data, hasSize, takes]

theorem spans_fillTo (spans : Spans (.ofArchitecture a) l.start l.fields l.stop) (address : Nat)
    (fits : address < Word.count) :
    Spans (.ofArchitecture a) (l.fillTo address).start (l.fillTo address).fields (l.fillTo address).stop ∧
      (l.fillTo address).start = l.start ∧ (l.fillTo address).stop = max l.stop address ∧
      ∀ field ∈ l.fields, field ∈ (l.fillTo address).fields := by
  unfold fillTo
  split
  next below =>
    have gap : address - l.stop < Word.count := by omega
    refine ⟨spans.append ⟨rfl, _, DataLayout.size?_bytes a gap, _, DataLayout.allocSize?_bytes a gap, ?_⟩,
      rfl, ?_, ?_⟩
    · change address = _
      omega
    · exact (Nat.max_eq_right (Nat.le_of_lt below)).symm
    · exact fun field member => List.mem_append_left _ member
  next above => exact ⟨spans, rfl, (Nat.max_eq_left (Nat.le_of_not_lt above)).symm, fun _ member => member⟩

theorem spans_push (spans : Spans (.ofArchitecture a) l.start l.fields l.stop)
    (takes : Takes (.ofArchitecture a) ty size) (fits : l.stop + size < Word.count) :
    let l' := l.push (.ofArchitecture a) ty size
    Spans (.ofArchitecture a) l'.start l'.fields l'.stop ∧ l'.start = l.start ∧
      l'.stop = l.stop + size ∧ (l.stop, ty.placed) ∈ l'.fields ∧ ∀ field ∈ l.fields, field ∈ l'.fields := by
  obtain ⟨hasSize, hasAlloc⟩ := takes.placed
  set stored := storedBytes (.ofArchitecture a) ty size with bytes
  have whole : min stored size + (size - stored) = size := by omega
  have unfolded : l.push (.ofArchitecture a) ty size =
      (l.place ty.placed (l.stop + min stored size)).fillTo (l.stop + size) := by
    have first : Word.wrap (l.stop + min stored size) = l.stop + min stored size :=
      Word.wrap_of_lt (by omega)
    have second : Word.wrap (l.stop + min stored size + (size - stored)) = l.stop + size := by
      rw [Nat.add_assoc, whole, Word.wrap_of_lt fits]
    simp only [push, ← bytes, place, first, second]
  have placed : Spans (.ofArchitecture a) l.start (l.place ty.placed (l.stop + min stored size)).fields
      (l.stop + min stored size) :=
    spans.append ⟨rfl, stored, hasSize, size, hasAlloc, rfl⟩
  obtain ⟨spans', start, stop, kept⟩ := spans_fillTo (l := l.place ty.placed _) placed _ fits
  rw [unfolded]
  refine ⟨spans', start, stop.trans ?_, kept _ (by simp [place]), fun field member => kept _ ?_⟩
  · simp only [place]
    omega
  · exact List.mem_append_left _ member

def IsPadding (ty : Ty) : Prop :=
  ∃ n, n < Word.count ∧ ty = .array .i8 n

theorem IsPadding.fills {ty : Ty} (padding : IsPadding ty) : (DataLayout.ofArchitecture a).Fills ty := by
  obtain ⟨n, fits, rfl⟩ := padding
  exact ⟨n, DataLayout.size?_bytes a fits, n, DataLayout.allocSize?_bytes a fits, Nat.le_refl n⟩

theorem mem_fillTo {address : Nat} (fits : address < Word.count) {field : Nat × Ty}
    (member : field ∈ (l.fillTo address).fields) : field ∈ l.fields ∨ IsPadding field.2 := by
  unfold fillTo at member
  split at member
  next =>
    rcases List.mem_append.mp member with before | here
    · exact .inl before
    · rw [List.mem_singleton.mp here]
      exact .inr ⟨address - l.stop, by omega, rfl⟩
  next => exact .inl member

theorem mem_push {L : DataLayout} {field : Nat × Ty} (member : field ∈ (l.push L ty size).fields) :
    field ∈ l.fields ∨ field = (l.stop, ty.placed) ∨ IsPadding field.2 := by
  rcases mem_fillTo (Word.wrap_lt _) member with before | padding
  · rcases List.mem_append.mp before with before | here
    · exact .inl before
    · exact .inr (.inl (List.mem_singleton.mp here))
  · exact .inr (.inr padding)

end Placing

/-- Whether a type has the parts of a list at their addresses, seen from its start, and its end. -/
def IsRealizedBy (L : DataLayout) (l : FieldList) (ty : Ty) : Prop :=
  (∀ i field, l.fields[i]? = some field → L.fieldOffset? ty i = some (field.1 - l.start)) ∧
    L.allocSize? ty = some (l.stop - l.start)

theorem isRealizedBy_packed_iff {L : DataLayout} {l : FieldList} (name : String)
    (spans : Spans L l.start l.fields l.stop) (fits : l.stop < Word.count) :
    l.IsRealizedBy L (.struct name l.types true) ↔ ∀ ty ∈ l.types, L.Fills ty := by
  obtain ⟨offsets, last, placed, agree⟩ := Spans.placeFields l.start 0 spans fits
  have at_index (i : Nat) : L.fieldOffset? (.struct name l.types true) i = offsets[i]? := by
    simp [DataLayout.fieldOffset?, DataLayout.fieldOffsets?, types, placed]
  have count : offsets.length = l.fields.length := by
    simpa using DataLayout.placeFields_length placed
  have sized : L.allocSize? (.struct name l.types true) = some last := DataLayout.allocSize?_packed placed
  have all : (∀ ty ∈ l.types, L.Fills ty) ↔ ∀ field ∈ l.fields, L.Fills field.2 := List.forall_mem_map
  rw [IsRealizedBy, sized, all, ← agree, Option.some.injEq]
  refine and_congr_left fun _ => ⟨fun each => ?_, ?_⟩
  · apply List.ext_getElem?
    intro i
    by_cases inside : i < l.fields.length
    · have field := each i l.fields[i] (List.getElem?_eq_getElem inside)
      rw [at_index] at field
      simp [field, inside]
    · have outside := Nat.le_of_not_lt inside
      simp [count, outside]
  · rintro rfl i field found
    simp [at_index, found]

end VarRecovery.FieldList
