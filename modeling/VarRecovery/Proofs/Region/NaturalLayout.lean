import VarRecovery.Proofs.Region.FieldList
import VarRecovery.Proofs.StoredBytes

/-!
When the unpacked struct of a list has its fields where the list has them. It does exactly if the list is natural and
each field stores all the bytes it takes: the natural offset of a field lies behind the bytes that the one before it
stores, its offset in a struct behind those that are taken.
-/

set_option autoImplicit false

namespace VarRecovery

namespace Word

/-- How far an address lies behind another, around the end of memory. -/
def distance (start address : Nat) : Nat :=
  wrap (count + address - start)

theorem distance_eq_iff {start address offset : Nat} (first : start < count) (second : address < count)
    (third : offset < count) : distance start address = offset ↔ wrap (start + offset) = address := by
  unfold distance wrap
  unfold count at *
  omega

end Word

namespace DataLayout

variable {L : DataLayout} {start stop align offset : Nat} {ty : Ty} {tys : List Ty} {offsets : List Nat}

/-- Where the first of some fields of an unpacked struct begins, and the others go on behind it. -/
theorem placeFields_unpacked {size : Nat} (regular : L.Regular ty size align) :
    L.placeFields false start (ty :: tys) = some (offsets, stop) ↔ ∃ rest, offsets = Word.roundUp start align :: rest ∧
      L.placeFields false (Word.wrap (Word.roundUp start align + Word.ceil size align)) tys = some (rest, stop) := by
  simp only [placeFields, regular.sized, regular.aligned, Word.roundUp_of_lt regular.inWord, bind, Option.bind_some,
    Bool.false_eq_true, if_false, Option.bind_eq_some_iff, pure, Option.some.injEq, Prod.mk.injEq]
  constructor
  · rintro ⟨⟨rest, last⟩, behind, rfl, rfl⟩
    exact ⟨rest, rfl, behind⟩
  · rintro ⟨rest, rfl, behind⟩
    exact ⟨⟨rest, stop⟩, behind, rfl, rfl⟩

theorem offset_lt_of_placeFields (regular : ∀ ty ∈ tys, ∃ size align, L.Regular ty size align)
    (placed : L.placeFields false start tys = some (offsets, stop)) : ∀ offset ∈ offsets, offset < Word.count := by
  induction tys generalizing start offsets with
  | nil =>
    cases placed
    exact nofun
  | cons ty tys ih =>
    obtain ⟨⟨size, align, here⟩, others⟩ := List.forall_mem_cons.mp regular
    obtain ⟨rest, rfl, behind⟩ := (placeFields_unpacked here).mp placed
    exact List.forall_mem_cons.mpr ⟨Word.roundUp_lt start align, ih others behind⟩

theorem allocSize?_unpacked (name : String) (placed : L.placeFields false 0 tys = some (offsets, stop))
    (strictest : L.maxAlign tys = some align) (power : align ∈ [1, 2, 4, 8, 16]) :
    L.allocSize? (.struct name tys false) = some (Word.roundUp stop align) := by
  simp [allocSize?, size?, align?, placed, strictest, Word.roundUp_roundUp power]

end DataLayout

namespace FieldList

/-! ### Building a list -/

/-- What may be done to a list of fields. -/
inductive Change where
  | push (ty : Ty) (size : Nat)
  | fillTo (address : Nat)
  | fillBytesTo (address : Nat)
deriving DecidableEq

/-- A field takes as many bytes as its type, and addresses are words. A vector that is too large to be aligned takes no
number of bytes. -/
def Change.Valid (L : DataLayout) : Change → Prop
  | .push ty size => Takes L ty size ∧ L.align? ty ≠ some 0
  | .fillTo address | .fillBytesTo address => address < Word.count

instance (L : DataLayout) : DecidablePred (Change.Valid L)
  | .push ty size => inferInstanceAs (Decidable (Takes L ty size ∧ L.align? ty ≠ some 0))
  | .fillTo address | .fillBytesTo address => inferInstanceAs (Decidable (address < Word.count))

def change (L : DataLayout) (l : FieldList) : Change → FieldList
  | .push ty size => l.push L ty size
  | .fillTo address => l.fillTo address
  | .fillBytesTo address => l.fillBytesTo address

/-- Fields with a place in memory, each behind the bytes that the one before it stores, around the end of memory. -/
def Chained (L : DataLayout) : Nat → List (Nat × Ty) → Nat → Prop
  | start, [], stop => stop = start
  | start, (address, ty) :: fields, stop =>
    address = start ∧ ∃ size align, L.Regular ty size align ∧ Chained L (Word.wrap (start + size)) fields stop

/-- A list whose addresses are words and whose fields are chained. -/
structure Formed (L : DataLayout) (l : FieldList) : Prop where
  start : l.start < Word.count
  stop : l.stop < Word.count
  chained : Chained L l.start l.fields l.stop

section Building

variable {a : Architecture} {L : DataLayout} {l : FieldList} {start mid stop size align address : Nat} {ty : Ty}
  {fields later : List (Nat × Ty)} {c : Change}

theorem Chained.append (first : Chained L start fields mid) (second : Chained L mid later stop) :
    Chained L start (fields ++ later) stop := by
  induction fields generalizing start with
  | nil => exact (show mid = start from first) ▸ second
  | cons field rest ih =>
    obtain ⟨here, size, align, regular, behind⟩ := first
    exact ⟨here, size, align, regular, ih behind⟩

theorem Chained.regular (chained : Chained L start fields stop) :
    ∀ field ∈ fields, ∃ size align, L.Regular field.2 size align := by
  induction fields generalizing start with
  | nil => exact nofun
  | cons field rest ih =>
    obtain ⟨-, size, align, regular, behind⟩ := chained
    exact List.forall_mem_cons.mpr ⟨⟨size, align, regular⟩, ih behind⟩

theorem Chained.address_lt (word : start < Word.count) (chained : Chained L start fields stop) :
    ∀ field ∈ fields, field.1 < Word.count := by
  induction fields generalizing start with
  | nil => exact nofun
  | cons field rest ih =>
    obtain ⟨rfl, size, align, -, behind⟩ := chained
    exact List.forall_mem_cons.mpr ⟨word, ih (Word.wrap_lt _) behind⟩

theorem regular_byte (a : Architecture) : (DataLayout.ofArchitecture a).Regular .i8 1 1 := by
  cases a <;> exact ⟨rfl, rfl, by decide, by decide⟩

theorem regular_bytes (a : Architecture) {n : Nat} (fits : n < Word.count) :
    (DataLayout.ofArchitecture a).Regular (.array .i8 n) n 1 := by
  have whole : Word.ceil 1 1 * n < Word.count := by simpa [Word.ceil] using fits
  simpa [Word.ceil] using ((regular_byte a).array whole).1

theorem formed_startAt (L : DataLayout) (word : start < Word.count) : (startAt start).Formed L :=
  ⟨word, word, rfl⟩

theorem Formed.fillTo (formed : l.Formed (.ofArchitecture a)) (word : address < Word.count) :
    (l.fillTo address).Formed (.ofArchitecture a) := by
  unfold FieldList.fillTo
  split
  next below =>
    have gap : address - l.stop < Word.count := by omega
    have ends : Word.wrap (l.stop + (address - l.stop)) = address := by
      rw [Nat.add_sub_cancel' (Nat.le_of_lt below), Word.wrap_of_lt word]
    exact ⟨formed.start, word, formed.chained.append ⟨rfl, _, _, regular_bytes a gap, ends.symm⟩⟩
  next => exact formed

theorem chained_bytes (a : Architecture) {n : Nat} (fits : start + n < Word.count) :
    Chained (.ofArchitecture a) start ((List.range n).map fun k => (start + k, .i8)) (start + n) := by
  induction n with
  | zero => rfl
  | succ n ih =>
    rw [List.range_succ, List.map_append]
    exact (ih (by omega)).append ⟨rfl, 1, 1, regular_byte a, (Word.wrap_of_lt fits).symm⟩

theorem Formed.fillBytesTo (formed : l.Formed (.ofArchitecture a)) (word : address < Word.count) :
    (l.fillBytesTo address).Formed (.ofArchitecture a) := by
  have stop := formed.stop
  have ends : max l.stop address = l.stop + (address - l.stop) := by omega
  refine ⟨formed.start, Nat.max_lt.mpr ⟨stop, word⟩, formed.chained.append ?_⟩
  rw [FieldList.fillBytesTo, ends]
  exact chained_bytes a (by omega)

theorem Formed.push (formed : l.Formed (.ofArchitecture a)) (takes : Takes (.ofArchitecture a) ty size)
    (aligned : (DataLayout.ofArchitecture a).align? ty ≠ some 0) :
    (l.push (.ofArchitecture a) ty size).Formed (.ofArchitecture a) := by
  obtain ⟨hasSize, hasAlloc⟩ := takes.placed
  have solid : (DataLayout.ofArchitecture a).align? ty.placed ≠ some 0 := by
    cases ty with
    | func => cases a <;> simp [Ty.placed, DataLayout.align?, DataLayout.ofArchitecture]
    | _ => exact aligned
  obtain ⟨stored, align, regular⟩ := DataLayout.regular_of_allocSize? hasAlloc solid
  obtain rfl := Option.some.inj (hasSize.symm.trans regular.sized)
  have placed : (l.place ty.placed (Word.wrap (l.stop + min (storedBytes (.ofArchitecture a) ty size) size))).Formed
      (.ofArchitecture a) := by
    refine ⟨formed.start, Word.wrap_lt _, formed.chained.append ⟨rfl, _, align, regular, ?_⟩⟩
    rw [Nat.min_eq_left (DataLayout.size?_le_allocSize? hasSize hasAlloc solid)]
    rfl
  exact placed.fillTo (Word.wrap_lt _)

theorem Formed.change (formed : l.Formed (.ofArchitecture a)) (valid : c.Valid (.ofArchitecture a)) :
    (l.change (.ofArchitecture a) c).Formed (.ofArchitecture a) := by
  cases c with
  | push ty size => exact formed.push valid.1 valid.2
  | fillTo address => exact formed.fillTo valid
  | fillBytesTo address => exact formed.fillBytesTo valid

theorem Formed.changes {changes : List Change} (formed : l.Formed (.ofArchitecture a))
    (valid : ∀ c ∈ changes, c.Valid (.ofArchitecture a)) :
    (changes.foldl (FieldList.change (.ofArchitecture a)) l).Formed (.ofArchitecture a) := by
  induction changes generalizing l with
  | nil => exact formed
  | cons c changes ih =>
    obtain ⟨here, others⟩ := List.forall_mem_cons.mp valid
    exact ih (formed.change here) others

end Building

/-! ### Fields of an unpacked struct -/

/-- Whether a type has the parts of a list where they are behind its start, and ends with it. -/
def Agrees (L : DataLayout) (l : FieldList) (ty : Ty) : Prop :=
  (∀ i field, l.fields[i]? = some field → L.fieldOffset? ty i = some (Word.distance l.start field.1)) ∧
    L.allocSize? ty = some (Word.distance l.start l.stop)

section Agreement

variable {L : DataLayout} {l : FieldList} {base start offset stop last align most : Nat} {fields : List (Nat × Ty)}
  {offsets : List Nat}

/-- Where fields store all they take, natural offsets are those of a struct. -/
theorem naturalEnd?_eq (regular : ∀ field ∈ fields, ∃ size align, L.Regular field.2 size align)
    (fills : ∀ field ∈ fields, L.Fills field.2) (pos : 1 ≤ align)
    (placed : L.placeFields false offset (fields.map Prod.snd) = some (offsets, last))
    (strictest : L.maxAlign (fields.map Prod.snd) = some most) : naturalEnd? L base offset align fields =
      if offsets.map (fun offset => Word.wrap (base + offset)) = fields.map Prod.fst then some (last, max align most)
      else none := by
  induction fields generalizing offset offsets align most with
  | nil =>
    cases placed
    cases strictest
    simp [naturalEnd?, Nat.max_eq_left pos]
  | cons field fields ih =>
    obtain ⟨address, ty⟩ := field
    obtain ⟨⟨size, own, here⟩, others⟩ := List.forall_mem_cons.mp regular
    obtain ⟨full, rest⟩ := List.forall_mem_cons.mp fills
    obtain ⟨offsets, rfl, behind⟩ := (DataLayout.placeFields_unpacked here).mp placed
    obtain ⟨strict, behindAlign, rfl⟩ :
        ∃ strict, L.maxAlign (fields.map Prod.snd) = some strict ∧ max own strict = most := by
      simpa [DataLayout.maxAlign, here.aligned, Option.bind_eq_some_iff] using strictest
    have whole : Word.ceil size own = size := by
      obtain ⟨stored, hasSize, alloc, hasAlloc, le⟩ := full
      cases Option.some.inj (hasSize.symm.trans here.sized)
      cases Option.some.inj (hasAlloc.symm.trans here.alloc)
      exact Nat.le_antisymm le (Word.le_ceil here.pos size)
    rw [whole] at behind
    simp only [naturalEnd?, here.sized, here.aligned, bind, Option.bind_some, List.map_cons, List.cons.injEq]
    by_cases same : Word.wrap (base + Word.roundUp offset own) = address
    · rw [if_pos same, ih others rest (Nat.le_trans pos (Nat.le_max_left _ _)) behind behindAlign, Nat.max_assoc]
      simp [same]
    · simp [same]

/-- Where the fields of a struct go on, or it ends, the list does, if both have the same addresses. -/
theorem Chained.next (chained : Chained L start fields stop)
    (placed : L.placeFields false offset (fields.map Prod.snd) = some (offsets, last))
    (same : offsets.map (fun offset => Word.wrap (base + offset)) = fields.map Prod.fst)
    (power : most ∈ [1, 2, 4, 8, 16]) (ends : stop = Word.wrap (base + Word.roundUp last most)) :
    ∃ align ∈ [1, 2, 4, 8, 16], start = Word.wrap (base + Word.roundUp offset align) := by
  cases fields with
  | nil =>
    cases placed
    exact ⟨most, power, (show stop = start from chained) ▸ ends⟩
  | cons field fields =>
    obtain ⟨rfl, size, align, regular, -⟩ := chained
    obtain ⟨rest, rfl, -⟩ := (DataLayout.placeFields_unpacked regular).mp placed
    exact ⟨align, regular.power, (List.cons.inj same).1.symm⟩

/-- The fields of a struct are where the list has them only if each of them stores all it takes. -/
theorem Chained.fills (chained : Chained L start fields stop)
    (placed : L.placeFields false offset (fields.map Prod.snd) = some (offsets, last))
    (same : offsets.map (fun offset => Word.wrap (base + offset)) = fields.map Prod.fst)
    (power : most ∈ [1, 2, 4, 8, 16]) (ends : stop = Word.wrap (base + Word.roundUp last most)) :
    ∀ field ∈ fields, L.Fills field.2 := by
  induction fields generalizing start offset offsets with
  | nil => exact nofun
  | cons field fields ih =>
    obtain ⟨address, ty⟩ := field
    obtain ⟨rfl, size, align, regular, behind⟩ := chained
    obtain ⟨rest, rfl, others⟩ := (DataLayout.placeFields_unpacked regular).mp placed
    obtain ⟨here, later⟩ := List.cons.inj same
    refine List.forall_mem_cons.mpr ⟨⟨size, regular.sized, _, regular.alloc, ?_⟩, ih behind others later⟩
    -- Padding of at most 15 bytes here and of at most 15 before the next field never adds up to all of memory.
    obtain ⟨own, ownPower, next⟩ := behind.next others later power ends
    have small (k : Nat) (power : k ∈ [1, 2, 4, 8, 16]) : 0 < k ∧ k ≤ 16 := by
      simp only [List.mem_cons, List.not_mem_nil, or_false] at power
      omega
    obtain ⟨d, less, rounded⟩ := Word.exists_roundUp_eq (small own ownPower).1
      (Word.wrap (Word.roundUp offset align + Word.ceil size align))
    have bound := Word.ceil_lt regular.pos size
    have first := (small align regular.power).2
    have second := (small own ownPower).2
    rw [rounded] at next
    simp only [Word.wrap, Word.count] at next here
    omega

/-- The unpacked struct of a list agrees with it if its offsets lead to the addresses of the list, and its size to the
end. -/
theorem agrees_iff_addresses (formed : l.Formed L) (name : String)
    (placed : L.placeFields false 0 l.types = some (offsets, last)) (strictest : L.maxAlign l.types = some most)
    (power : most ∈ [1, 2, 4, 8, 16]) : l.Agrees L (.struct name l.types false) ↔
      offsets.map (fun offset => Word.wrap (l.start + offset)) = l.fields.map Prod.fst ∧
        l.stop = Word.wrap (l.start + Word.roundUp last most) := by
  have regular : ∀ ty ∈ l.types, ∃ size align, L.Regular ty size align :=
    List.forall_mem_map.mpr formed.chained.regular
  have count : offsets.length = l.fields.length := by simpa [types] using DataLayout.placeFields_length placed
  have words := DataLayout.offset_lt_of_placeFields regular placed
  have at_index (i : Nat) : L.fieldOffset? (.struct name l.types false) i = offsets[i]? := by
    simp [DataLayout.fieldOffset?, DataLayout.fieldOffsets?, placed]
  rw [Agrees, DataLayout.allocSize?_unpacked name placed strictest power, Option.some.injEq]
  refine and_congr ⟨fun each => ?_, fun same i field found => ?_⟩ ?_
  · refine List.ext_getElem (by simp [count]) fun i first second => ?_
    simp only [List.length_map] at first second
    have there := each i l.fields[i] (List.getElem?_eq_getElem second)
    rw [at_index, List.getElem?_eq_getElem first, Option.some.injEq] at there
    have address := formed.chained.address_lt formed.start _ (List.getElem_mem second)
    have offset := words _ (List.getElem_mem first)
    simpa using (Word.distance_eq_iff formed.start address offset).mp there.symm
  · have address := formed.chained.address_lt formed.start _ (List.mem_of_getElem? found)
    have there : (offsets[i]?).map (fun offset => Word.wrap (l.start + offset)) = some field.1 := by
      rw [← List.getElem?_map, same, List.getElem?_map, found, Option.map_some]
    obtain ⟨offset, known, here⟩ := Option.map_eq_some_iff.mp there
    rw [at_index, known]
    have offset := words _ (List.mem_of_getElem? known)
    exact congrArg some ((Word.distance_eq_iff formed.start address offset).mpr here).symm
  · rw [eq_comm, Word.distance_eq_iff formed.start formed.stop (Word.roundUp_lt last most), eq_comm]

/-- A list whose fields store all they take is natural under the same condition. -/
theorem isNatural_iff_addresses (formed : l.Formed L) (fills : ∀ field ∈ l.fields, L.Fills field.2)
    (placed : L.placeFields false 0 l.types = some (offsets, last)) (strictest : L.maxAlign l.types = some most)
    (power : most ∈ [1, 2, 4, 8, 16]) : l.isNatural L = true ↔
      offsets.map (fun offset => Word.wrap (l.start + offset)) = l.fields.map Prod.fst ∧
        l.stop = Word.wrap (l.start + Word.roundUp last most) := by
  have pos : 1 ≤ most := by
    simp only [List.mem_cons, List.not_mem_nil, or_false] at power
    omega
  rw [isNatural, naturalEnd?_eq formed.chained.regular fills (Nat.le_refl 1) placed strictest, Nat.max_eq_right pos]
  split <;> simp_all [eq_comm]

theorem agrees_unpacked_iff (formed : l.Formed L) (name : String) :
    l.Agrees L (.struct name l.types false) ↔ l.isNatural L = true ∧ ∀ ty ∈ l.types, L.Fills ty := by
  have regular : ∀ ty ∈ l.types, ∃ size align, L.Regular ty size align :=
    List.forall_mem_map.mpr formed.chained.regular
  have parts : (L.placeFields false 0 l.types).isSome := by
    refine DataLayout.isSome_placeFields.mpr fun ty member => ?_
    obtain ⟨size, align, known⟩ := regular ty member
    exact ⟨Option.isSome_of_eq_some known.aligned, Option.isSome_of_eq_some known.sized⟩
  obtain ⟨⟨offsets, last⟩, placed⟩ := Option.isSome_iff_exists.mp parts
  obtain ⟨most, strictest, power, -⟩ := DataLayout.maxAlign_power regular
  have all : (∀ ty ∈ l.types, L.Fills ty) ↔ ∀ field ∈ l.fields, L.Fills field.2 := List.forall_mem_map
  rw [agrees_iff_addresses formed name placed strictest power, all]
  constructor
  · rintro ⟨same, ends⟩
    have fills := formed.chained.fills placed same power ends
    exact ⟨(isNatural_iff_addresses formed fills placed strictest power).mpr ⟨same, ends⟩, fills⟩
  · rintro ⟨isNatural, fills⟩
    exact (isNatural_iff_addresses formed fills placed strictest power).mp isNatural

end Agreement

/-! ### Lists that were built -/

/-- The type of the field that a change places, without padding. -/
def Change.types : Change → List Ty
  | .push ty _ => [ty.placed]
  | .fillTo _ | .fillBytesTo _ => []

section Built

variable {a : Architecture} {l : FieldList} {ty : Ty} {size address : Nat} {c : Change} {changes : List Change}

theorem exists_types_fillTo (a : Architecture) (l : FieldList) (word : address < Word.count) :
    ∃ padding, (l.fillTo address).types = l.types ++ padding ∧
      ∀ ty ∈ padding, (DataLayout.ofArchitecture a).Fills ty := by
  unfold fillTo
  split
  next =>
    have gap : IsPadding (.array .i8 (address - l.stop)) := ⟨_, by omega, rfl⟩
    exact ⟨[.array .i8 (address - l.stop)], by simp [types, place], List.forall_mem_singleton.mpr gap.fills⟩
  next => exact ⟨[], (List.append_nil _).symm, List.forall_mem_nil _⟩

theorem fills_byte (a : Architecture) : (DataLayout.ofArchitecture a).Fills .i8 := by
  cases a <;> exact ⟨1, rfl, 1, rfl, Nat.le_refl 1⟩

/-- A change adds its field and padding, which stores all it takes. -/
theorem exists_types_change (l : FieldList) (valid : c.Valid (.ofArchitecture a)) :
    ∃ padding, (l.change (.ofArchitecture a) c).types = l.types ++ c.types ++ padding ∧
      ∀ ty ∈ padding, (DataLayout.ofArchitecture a).Fills ty := by
  cases c with
  | push ty size =>
    obtain ⟨padding, same, fills⟩ := exists_types_fillTo a
      (l.place ty.placed (Word.wrap (l.stop + min (storedBytes (.ofArchitecture a) ty size) size))) (Word.wrap_lt _)
    exact ⟨padding, same.trans (by simp [types, place, Change.types]), fills⟩
  | fillTo address =>
    obtain ⟨padding, same, fills⟩ := exists_types_fillTo a l valid
    exact ⟨padding, same.trans (by simp [Change.types]), fills⟩
  | fillBytesTo address =>
    refine ⟨List.replicate (address - l.stop) .i8, ?_, fun ty member => ?_⟩
    · have bytes : ((List.range (address - l.stop)).map fun n => (l.stop + n, Ty.i8)).map Prod.snd =
          List.replicate (address - l.stop) .i8 := by
        rw [List.map_map]
        exact List.map_const'.trans (by rw [List.length_range])
      simp only [change, fillBytesTo, types, List.map_append, bytes, Change.types, List.append_nil]
    · exact (List.mem_replicate.mp member).2 ▸ fills_byte a

theorem fills_changes_iff (valid : ∀ c ∈ changes, c.Valid (.ofArchitecture a)) :
    (∀ ty ∈ (changes.foldl (change (.ofArchitecture a)) l).types, (DataLayout.ofArchitecture a).Fills ty) ↔
      (∀ ty ∈ l.types, (DataLayout.ofArchitecture a).Fills ty) ∧
        ∀ c ∈ changes, ∀ ty ∈ c.types, (DataLayout.ofArchitecture a).Fills ty := by
  induction changes generalizing l with
  | nil => simp
  | cons c changes ih =>
    obtain ⟨here, others⟩ := List.forall_mem_cons.mp valid
    obtain ⟨padding, same, fills⟩ := exists_types_change l here
    rw [List.foldl_cons, ih others, same, List.forall_mem_append, List.forall_mem_append, List.forall_mem_cons,
      and_assoc, and_assoc]
    exact and_congr_right fun _ => and_congr_right fun _ => and_iff_right fills

/-- The unpacked struct of a list has the list's fields where they are and ends with it exactly if the list is natural
and no field takes more bytes than it stores. -/
theorem changes_agree_iff (a : Architecture) {start : Nat} (word : start < Word.count) {changes : List Change}
    (valid : ∀ c ∈ changes, c.Valid (.ofArchitecture a)) (name : String) :
    let l := changes.foldl (change (.ofArchitecture a)) (startAt start)
    l.Agrees (.ofArchitecture a) (.struct name l.types false) ↔ l.isNatural (.ofArchitecture a) = true ∧
      ∀ ty size, .push ty size ∈ changes → (DataLayout.ofArchitecture a).Fills ty.placed := by
  intro l
  have formed : l.Formed (.ofArchitecture a) := (formed_startAt _ word).changes valid
  rw [agrees_unpacked_iff formed name, fills_changes_iff valid]
  refine and_congr_right fun _ => ⟨fun ⟨_, fills⟩ ty size member => ?_, fun fills => ⟨nofun, fun c member => ?_⟩⟩
  · exact fills _ member _ (List.mem_singleton_self _)
  · cases c with
    | push ty size => exact List.forall_mem_singleton.mpr (fills ty size member)
    | fillTo | fillBytesTo => exact nofun

/-- Two integers, the first with padding behind it, and code. -/
def paddedFields : List Change :=
  [.push .i16 2, .fillTo 0x104, .push .i32 4, .push (.func [] .unit) 8, .fillBytesTo 0x10c]

theorem paddedFields_agree : 0x100 < Word.count ∧ (∀ c ∈ paddedFields, c.Valid (.ofArchitecture .x86_64)) ∧
    let l := paddedFields.foldl (change (.ofArchitecture .x86_64)) (startAt 0x100)
    l.types = [.i16, .array .i8 2, .i32, .ptr (.func [] .unit)] ∧
      l.Agrees (.ofArchitecture .x86_64) (.struct "s" l.types false) := by
  have word : 0x100 < Word.count := by decide
  have valid : ∀ c ∈ paddedFields, c.Valid (.ofArchitecture .x86_64) := by decide +kernel
  refine ⟨word, valid, by decide +kernel, (changes_agree_iff .x86_64 word valid "s").mpr ⟨by decide +kernel, ?_⟩⟩
  intro ty size member
  simp only [paddedFields, List.mem_cons, Change.push.injEq, List.not_mem_nil, or_false, reduceCtorEq,
    false_or] at member
  rcases member with ⟨rfl, rfl⟩ | ⟨rfl, rfl⟩ | ⟨rfl, rfl⟩
  · exact ⟨2, rfl, 2, rfl, Nat.le_refl 2⟩
  · exact ⟨4, rfl, 4, rfl, Nat.le_refl 4⟩
  · exact ⟨8, rfl, 8, rfl, Nat.le_refl 8⟩

/-- An 80-bit float with its padding is natural, but in the struct the padding comes behind all the bytes that the
float takes. -/
theorem longDouble_disagrees : (Change.push .f80 16).Valid (.ofArchitecture .x86_64) ∧
    let l := [Change.push .f80 16].foldl (change (.ofArchitecture .x86_64)) (startAt 0)
    l.isNatural (.ofArchitecture .x86_64) = true ∧ ¬l.Agrees (.ofArchitecture .x86_64) (.struct "s" l.types false) := by
  refine ⟨by decide +kernel, by decide +kernel, fun ⟨each, _⟩ => ?_⟩
  have padding := each 1 (10, .array .i8 6) (by decide +kernel)
  revert padding
  decide +kernel

end Built

end FieldList

end VarRecovery
