import VarRecovery.Proofs.Region.Frame
import VarRecovery.Proofs.StoredBytes

/-!
How a frame is divided. Its fields lie one behind the other from its base to its end: one for each cell that does not
begin in a field before it, and padding. A frame holds the bytes of all its cells, also of those without a field.
-/

set_option autoImplicit false

namespace VarRecovery

namespace Cell

/-- A cell of as many bytes as its type takes. A vector that is too large to be aligned takes no number of bytes. -/
structure Sized (L : DataLayout) (c : Cell) : Prop where
  takes : FieldList.Takes L c.ty c.size
  aligned : L.align? c.ty ≠ some 0

/-- Whether some bytes of a cell lie behind the last address. -/
def passesMemory (c : Cell) : Bool :=
  maxAddress < c.address + c.size

variable {c : Cell}

theorem stop_of_passesMemory (passes : c.passesMemory) : c.stop = .error (.addressOverflow c.address c.size) :=
  if_neg (Nat.not_le_of_lt (of_decide_eq_true passes))

theorem stop_of_not_passesMemory (fits : ¬c.passesMemory) : c.stop = .ok (c.address + c.size) :=
  if_pos (Nat.le_of_not_lt fun passes => fits (decide_eq_true passes))

theorem Sized.stored_le {a : Architecture} (sized : c.Sized (.ofArchitecture a)) :
    FieldList.storedBytes (.ofArchitecture a) c.ty c.size ≤ c.size := by
  have takes := sized.takes
  unfold FieldList.Takes at takes
  unfold FieldList.storedBytes
  split at takes
  next code => exact Nat.le_of_eq ((if_pos code).trans takes.symm)
  next data =>
    obtain ⟨size, align, hasSize, -, -⟩ := DataLayout.allocSize?_some takes
    rw [if_neg data, hasSize]
    exact DataLayout.size?_le_allocSize? hasSize takes sized.aligned

end Cell

namespace FieldList

/-- The bytes that the types of fields store. -/
def bytes (L : DataLayout) : List (Nat × Ty) → Nat
  | [] => 0
  | (_, ty) :: fields => (L.size? ty).getD 0 + bytes L fields

/-- Fields of known sizes from `start` to `stop`, each of which begins behind the bytes of those before it. -/
structure Tiles (L : DataLayout) (start : Nat) (fields : List (Nat × Ty)) (stop : Nat) : Prop where
  sized : ∀ field ∈ fields, (L.size? field.2).isSome
  starts : ∀ i field, fields[i]? = some field → field.1 = start + bytes L (fields.take i)
  stops : stop = start + bytes L fields

variable {L : DataLayout} {start mid stop size : Nat} {ty : Ty} {fields later : List (Nat × Ty)}

theorem tiles_nil (start : Nat) : Tiles L start [] start :=
  ⟨nofun, nofun, rfl⟩

theorem Tiles.cons (sized : L.size? ty = some size) (tiles : Tiles L (start + size) fields stop) :
    Tiles L start ((start, ty) :: fields) stop := by
  refine ⟨List.forall_mem_cons.mpr ⟨by simp [sized], tiles.sized⟩, fun i field found => ?_, ?_⟩
  · cases i with
    | zero => exact congrArg Prod.fst (Option.some.inj found).symm
    | succ i => simp [tiles.starts i field found, bytes, sized, Nat.add_assoc]
  · simp [tiles.stops, bytes, sized, Nat.add_assoc]

theorem Tiles.append (first : Tiles L start fields mid) (second : Tiles L mid later stop) :
    Tiles L start (fields ++ later) stop := by
  induction fields generalizing start with
  | nil => exact (show mid = start from first.stops) ▸ second
  | cons field fields ih =>
    obtain ⟨address, ty⟩ := field
    obtain ⟨known, others⟩ := List.forall_mem_cons.mp first.sized
    obtain ⟨size, sized⟩ := Option.isSome_iff_exists.mp known
    obtain rfl : address = start := first.starts 0 _ rfl
    refine .cons sized (ih ⟨others, fun i field found => ?_, ?_⟩)
    · simpa [bytes, sized, Nat.add_assoc] using first.starts (i + 1) field found
    · simpa [bytes, sized, Nat.add_assoc] using first.stops

/-- The bytes from `start` to `stop` as one array, if there are any. -/
def gap (start stop : Nat) : List (Nat × Ty) :=
  if start < stop then [(start, .array .i8 (stop - start))] else []

theorem tiles_gap (a : Architecture) (ordered : start ≤ stop) (fits : stop < Word.count) :
    Tiles (.ofArchitecture a) start (gap start stop) stop := by
  unfold gap
  split
  next =>
    refine .cons (DataLayout.size?_bytes a (Nat.lt_of_le_of_lt (Nat.sub_le _ _) fits)) ?_
    rw [Nat.add_sub_cancel' ordered]
    exact tiles_nil stop
  next touching =>
    rw [Nat.le_antisymm ordered (Nat.le_of_not_lt touching)]
    exact tiles_nil stop

theorem fillTo_eq (l : FieldList) (address : Nat) :
    l.fillTo address = ⟨l.start, max l.stop address, l.fields ++ gap l.stop address⟩ := by
  unfold fillTo gap
  split
  next below => rw [Nat.max_eq_right (Nat.le_of_lt below)]; rfl
  next above => rw [Nat.max_eq_left (Nat.le_of_not_lt above), List.append_nil]

/-- A field is placed, and the bytes that it takes and does not store. -/
theorem push_eq (l : FieldList) (L : DataLayout) (stored : storedBytes L ty size ≤ size)
    (fits : l.stop + size < Word.count) :
    l.push L ty size = ⟨l.start, l.stop + size, l.fields ++ (l.stop, ty.placed) ::
      gap (l.stop + storedBytes L ty size) (l.stop + size)⟩ := by
  have first : Word.wrap (l.stop + storedBytes L ty size) = l.stop + storedBytes L ty size :=
    Word.wrap_of_lt (by omega)
  have second : l.stop + storedBytes L ty size + (size - storedBytes L ty size) = l.stop + size := by omega
  simp only [push, place, fillTo_eq, Nat.min_eq_left stored, first, second, Word.wrap_of_lt fits]
  rw [Nat.max_eq_right (by omega), List.append_assoc]
  rfl

end FieldList

namespace FrameLayout

/-- The cells that have a field, if the fields before them end at `stop`: each that does not begin before the end of
the fields so far. -/
def placedFrom : (stop : Nat) → List Cell → List Cell
  | _, [] => []
  | stop, c :: cells =>
    if c.address < stop then placedFrom stop cells else c :: placedFrom (c.address + c.size) cells

/-- The fields of such cells behind `stop`, each with the padding before it and behind it, up to `last`. -/
def fieldsFrom (L : DataLayout) (last : Nat) : (stop : Nat) → List Cell → List (Nat × Ty)
  | stop, [] => FieldList.gap stop last
  | stop, c :: cells =>
    FieldList.gap stop c.address ++
      (c.address, c.ty.placed) ::
        (FieldList.gap (c.address + FieldList.storedBytes L c.ty c.size) (c.address + c.size) ++
          fieldsFrom L last (c.address + c.size) cells)

/-- What a frame for cells in some order is, where the stack pointer and the redzone are given. -/
structure Divides (L : DataLayout) (cells : List Cell) (stackPointer redzone : Nat) (l : FrameLayout) : Prop where
  base : ∃ low, IsLeast {x | x = stackPointer ∨ ∃ c ∈ cells, x = c.address} low ∧ l.base = low - redzone
  start : l.fields.start = l.base
  stop : IsGreatest {x | x = stackPointer ∨ ∃ c ∈ cells, x = c.address + c.size} l.fields.stop
  tiles : FieldList.Tiles L l.base l.fields.fields l.fields.stop
  fields : l.fields.fields = fieldsFrom L l.fields.stop l.base (placedFrom l.base cells)
  skipped : l.skipped + (placedFrom l.base cells).length = cells.length
  inside : ∀ c ∈ cells, l.base ≤ c.address ∧ c.address + c.size ≤ l.fields.stop

/-! ### Adding cells one by one -/

/-- A frame with one more cell, which ends in memory. -/
def add (L : DataLayout) (l : FrameLayout) (c : Cell) : FrameLayout :=
  if c.address < l.fields.stop then { l with skipped := l.skipped + 1 }
  else { l with fields := (l.fields.fillTo c.address).push L c.ty c.size }

def highest (cells : List Cell) (stackPointer : Nat) : Nat :=
  cells.foldl (fun high c => max high (c.address + c.size)) stackPointer

variable {L : DataLayout} {l : FrameLayout} {high stackPointer redzone : Nat} {cells : List Cell} {c : Cell}

theorem run_addCell (fits : ¬c.passesMemory) (l : FrameLayout) (high : Nat) (ws : List Warning) : ∃ stop,
    (addCell L (l, high) c).run.run ws = (.ok (l.add L c, max high (c.address + c.size)), stop) := by
  unfold addCell add
  dsimp only
  rw [Cell.stop_of_not_passesMemory fits]
  split
  next => exact ⟨_, rfl⟩
  next => exact ⟨_, rfl⟩

theorem run_addCell_error (passes : c.passesMemory) (ws : List Warning) :
    (addCell L (l, high) c).run.run ws = (.error (.addressOverflow c.address c.size), ws) := by
  unfold addCell
  dsimp only
  rw [Cell.stop_of_passesMemory passes]
  rfl

/-- The first cell that passes the end of memory stops the run; if there is none, all are added. -/
theorem run_foldlM_addCell (cells : List Cell) (l : FrameLayout) (high : Nat) (ws : List Warning) : ∃ stop,
    (cells.foldlM (addCell L) (l, high)).run.run ws =
      (match cells.find? Cell.passesMemory with
        | some c => .error (.addressOverflow c.address c.size)
        | none => .ok (cells.foldl (add L) l, highest cells high), stop) := by
  induction cells generalizing l high ws with
  | nil => exact ⟨ws, rfl⟩
  | cons c cells ih =>
    rw [List.foldlM_cons]
    cases passes : c.passesMemory with
    | true =>
      rw [List.find?_cons_of_pos passes]
      exact ⟨ws, by rw [ExceptT.run_bind, StateT.run_bind, run_addCell_error passes]; rfl⟩
    | false =>
      have fits : ¬c.passesMemory := by simp [passes]
      obtain ⟨mid, first⟩ := run_addCell (L := L) fits l high ws
      obtain ⟨stop, rest⟩ := ih (l.add L c) (max high (c.address + c.size)) mid
      rw [List.find?_cons_of_neg fits, Recovering.run_bind first]
      exact ⟨stop, rest⟩

/-! ### Where a frame begins and ends -/

theorem isLeast_foldl_min (cells : List Cell) (low : Nat) :
    IsLeast {x | x = low ∨ ∃ c ∈ cells, x = c.address} (cells.foldl (fun low c => min low c.address) low) := by
  induction cells generalizing low with
  | nil =>
    refine ⟨.inl rfl, ?_⟩
    rintro x (rfl | ⟨c, member, -⟩)
    · exact Nat.le_refl _
    · cases member
  | cons c cells ih =>
    obtain ⟨reached, least⟩ := ih (min low c.address)
    refine ⟨?_, ?_⟩
    · rcases reached with same | ⟨d, member, same⟩
      · rw [List.foldl_cons, same]
        rcases Nat.le_total low c.address with le | le
        · exact .inl (Nat.min_eq_left le)
        · exact .inr ⟨c, List.mem_cons_self, Nat.min_eq_right le⟩
      · exact .inr ⟨d, List.mem_cons_of_mem c member, same⟩
    · have first := least (.inl rfl)
      rintro x (rfl | ⟨d, member, rfl⟩)
      · exact Nat.le_trans first (Nat.min_le_left _ _)
      · rcases List.mem_cons.mp member with rfl | inside
        · exact Nat.le_trans first (Nat.min_le_right _ _)
        · exact least (.inr ⟨d, inside, rfl⟩)

theorem isGreatest_highest (cells : List Cell) (high : Nat) :
    IsGreatest {x | x = high ∨ ∃ c ∈ cells, x = c.address + c.size} (highest cells high) := by
  unfold highest
  induction cells generalizing high with
  | nil =>
    refine ⟨.inl rfl, ?_⟩
    rintro x (rfl | ⟨c, member, -⟩)
    · exact Nat.le_refl _
    · cases member
  | cons c cells ih =>
    obtain ⟨reached, greatest⟩ := ih (max high (c.address + c.size))
    refine ⟨?_, ?_⟩
    · rcases reached with same | ⟨d, member, same⟩
      · rw [List.foldl_cons, same]
        rcases Nat.le_total high (c.address + c.size) with le | le
        · exact .inr ⟨c, List.mem_cons_self, Nat.max_eq_right le⟩
        · exact .inl (Nat.max_eq_left le)
      · exact .inr ⟨d, List.mem_cons_of_mem c member, same⟩
    · have first := greatest (.inl rfl)
      rintro x (rfl | ⟨d, member, rfl⟩)
      · exact Nat.le_trans (Nat.le_max_left _ _) first
      · rcases List.mem_cons.mp member with rfl | inside
        · exact Nat.le_trans (Nat.le_max_right _ _) first
        · exact greatest (.inr ⟨d, inside, rfl⟩)

/-! ### The fields of a frame -/

section Fields

variable {a : Architecture} {last stop : Nat}

/-- Where the fields of cells end that have one each. -/
def stopAfter : (stop : Nat) → List Cell → Nat
  | stop, [] => stop
  | stop, c :: cells => stopAfter (if c.address < stop then stop else c.address + c.size) cells

theorem stopAfter_le (bound : stop ≤ last) (ends : ∀ c ∈ cells, c.address + c.size ≤ last) :
    stopAfter stop cells ≤ last := by
  induction cells generalizing stop with
  | nil => exact bound
  | cons c cells ih =>
    obtain ⟨here, others⟩ := List.forall_mem_cons.mp ends
    exact ih (by split <;> assumption) others

/-- Adding cells lays fields behind those that are there, up to `last` in the end, and counts the other cells. -/
theorem foldl_add (sized : ∀ c ∈ cells, c.Sized (.ofArchitecture a)) (fits : ∀ c ∈ cells, ¬c.passesMemory)
    (l : FrameLayout) (last : Nat) :
    let r := cells.foldl (add (.ofArchitecture a)) l
    r.base = l.base ∧ r.skipped + (placedFrom l.fields.stop cells).length = l.skipped + cells.length ∧
      r.fields.fillTo last = ⟨l.fields.start, max (stopAfter l.fields.stop cells) last, l.fields.fields ++
        fieldsFrom (.ofArchitecture a) last l.fields.stop (placedFrom l.fields.stop cells)⟩ := by
  induction cells generalizing l with
  | nil => exact ⟨rfl, rfl, FieldList.fillTo_eq _ _⟩
  | cons c cells ih =>
    obtain ⟨takes, others⟩ := List.forall_mem_cons.mp sized
    obtain ⟨inMemory, rest⟩ := List.forall_mem_cons.mp fits
    -- A cell that starts before the last field ends is skipped whole; any other one moves the end.
    by_cases overlaps : c.address < l.fields.stop
    · have same : l.add (.ofArchitecture a) c = { l with skipped := l.skipped + 1 } := if_pos overlaps
      obtain ⟨base, skipped, fields⟩ := ih others rest { l with skipped := l.skipped + 1 }
      simp only [List.foldl_cons, same, placedFrom, stopAfter, if_pos overlaps, List.length_cons]
      refine ⟨base, ?_, fields⟩
      dsimp only at skipped
      omega
    · have word : c.address + c.size < Word.count := by
        refine Nat.lt_of_le_of_lt (Nat.le_of_not_lt fun passes => inMemory (decide_eq_true passes)) ?_
        decide
      have reached : max l.fields.stop c.address = c.address := Nat.max_eq_right (Nat.le_of_not_lt overlaps)
      have same : l.add (.ofArchitecture a) c = { l with fields := ⟨l.fields.start, c.address + c.size,
          l.fields.fields ++ FieldList.gap l.fields.stop c.address ++ (c.address, c.ty.placed) ::
            FieldList.gap (c.address + FieldList.storedBytes (.ofArchitecture a) c.ty c.size)
              (c.address + c.size)⟩ } := by
        rw [add, if_neg overlaps, FieldList.fillTo_eq, reached, FieldList.push_eq _ _ takes.stored_le word]
      obtain ⟨base, skipped, fields⟩ := ih others rest (l.add (.ofArchitecture a) c)
      simp only [same] at base skipped fields
      simp only [List.foldl_cons, same, placedFrom, stopAfter, if_neg overlaps, List.length_cons, fieldsFrom]
      refine ⟨base, by omega, ?_⟩
      rw [fields]
      simp only [List.append_assoc, List.cons_append]

theorem tiles_fieldsFrom (sized : ∀ c ∈ cells, c.Sized (.ofArchitecture a)) (bound : stop ≤ last)
    (ends : ∀ c ∈ cells, c.address + c.size ≤ last) (word : last < Word.count) :
    FieldList.Tiles (.ofArchitecture a) stop (fieldsFrom (.ofArchitecture a) last stop (placedFrom stop cells)) last := by
  induction cells generalizing stop with
  | nil => exact FieldList.tiles_gap a bound word
  | cons c cells ih =>
    obtain ⟨takes, others⟩ := List.forall_mem_cons.mp sized
    obtain ⟨here, rest⟩ := List.forall_mem_cons.mp ends
    unfold placedFrom
    split
    next => exact ih others bound rest
    next free =>
      have stored := takes.stored_le
      have before := FieldList.tiles_gap a (Nat.le_of_not_lt free) (show c.address < Word.count by omega)
      have behind := FieldList.tiles_gap a (Nat.add_le_add_left stored c.address)
        (show c.address + c.size < Word.count by omega)
      exact before.append (.cons takes.takes.placed.1 (behind.append (ih others here rest)))

end Fields

/-- A frame cannot be laid out exactly if some cell passes the end of memory, and the first such cell is the reason.
Else its fields tile it, and all of its cells lie in it. -/
theorem ofCells_divides (a : Architecture) {cells : List Cell} {stackPointer redzone : Nat}
    (word : stackPointer ≤ maxAddress) (sized : ∀ c ∈ cells, c.Sized (.ofArchitecture a)) :
    (∀ e, (ofCells (.ofArchitecture a) cells stackPointer redzone).warnings.1 = .error e ↔
      ∃ c, cells.find? Cell.passesMemory = some c ∧ e = .addressOverflow c.address c.size) ∧
    ((∀ c ∈ cells, c.address + c.size ≤ maxAddress) →
      ∃ l, (ofCells (.ofArchitecture a) cells stackPointer redzone).warnings.1 = .ok l ∧
        l.Divides (.ofArchitecture a) cells stackPointer redzone) := by
  have low := isLeast_foldl_min cells stackPointer
  have high := isGreatest_highest cells stackPointer
  have first : baseOf cells stackPointer redzone = cells.foldl (fun low c => min low c.address) stackPointer - redzone :=
    rfl
  generalize cells.foldl (fun low c => min low c.address) stackPointer = lowest at low first
  generalize based : baseOf cells stackPointer redzone = base at first
  obtain ⟨stop, run⟩ := run_foldlM_addCell (L := .ofArchitecture a) cells ⟨base, .startAt base, 0⟩ stackPointer []
  have laid : (ofCells (.ofArchitecture a) cells stackPointer redzone).warnings.1 =
      match cells.find? Cell.passesMemory with
      | some c => .error (.addressOverflow c.address c.size)
      | none =>
        let l := cells.foldl (add (.ofArchitecture a)) ⟨base, .startAt base, 0⟩
        .ok { l with fields := l.fields.fillTo (highest cells stackPointer) } := by
    unfold ofCells Recovering.warnings
    dsimp only
    rw [based, ExceptT.run_bind, StateT.run_bind, run]
    cases cells.find? Cell.passesMemory <;> rfl
  rw [laid]
  constructor
  · intro e
    cases cells.find? Cell.passesMemory with
    | some c => simp [eq_comm]
    | none => simp
  · intro ends
    have fits : ∀ c ∈ cells, ¬c.passesMemory := fun c member passes =>
      Nat.not_le_of_lt (of_decide_eq_true passes) (ends c member)
    have bound : highest cells stackPointer ≤ maxAddress := by
      rcases high.1 with same | ⟨c, member, same⟩
      · exact Nat.le_trans (Nat.le_of_eq same) word
      · exact Nat.le_trans (Nat.le_of_eq same) (ends c member)
    have last : ∀ c ∈ cells, c.address + c.size ≤ highest cells stackPointer := fun c member =>
      high.2 (.inr ⟨c, member, rfl⟩)
    have lowest_le : lowest ≤ stackPointer := low.2 (.inl rfl)
    -- The stack pointer counts among the ends, so even a frame without cells ends no lower than it begins.
    have below : base ≤ highest cells stackPointer := by
      have := high.2 (.inl rfl)
      omega
    obtain ⟨same, skipped, fields⟩ :=
      foldl_add sized fits ⟨base, .startAt base, 0⟩ (highest cells stackPointer)
    have ends_at : stopAfter base cells ≤ highest cells stackPointer := stopAfter_le below last
    rw [List.find?_eq_none.mpr fits]
    refine ⟨_, rfl, ?_⟩
    have final : (cells.foldl (add (.ofArchitecture a)) ⟨base, .startAt base, 0⟩).fields.fillTo
        (highest cells stackPointer) = ⟨base, highest cells stackPointer,
          fieldsFrom (.ofArchitecture a) (highest cells stackPointer) base (placedFrom base cells)⟩ :=
      fields.trans (congrArg (FieldList.mk base · _) (Nat.max_eq_right ends_at))
    simp only [final, same]
    refine ⟨⟨lowest, low, first⟩, rfl, high, ?_, rfl, ?_, fun c member => ⟨?_, last c member⟩⟩
    · exact tiles_fieldsFrom sized below last (Nat.lt_of_le_of_lt bound (by decide))
    · simpa [FieldList.startAt] using skipped
    · have := low.2 (.inr ⟨c, member, rfl⟩)
      dsimp only
      omega

/-- An 80-bit float, code behind it, and an integer in the middle of the float. -/
def crowdedCells : List Cell :=
  [⟨⟨0⟩, 4096, .f80, 16, .plain, ⟨0⟩, ⟨0⟩⟩, ⟨⟨0⟩, 4120, .func [] .unit, 8, .plain, ⟨1⟩, ⟨1⟩⟩,
    ⟨⟨0⟩, 4104, .i32, 4, .plain, ⟨2⟩, ⟨2⟩⟩]

theorem crowdedCells_divided : 4100 ≤ maxAddress ∧ (∀ c ∈ crowdedCells, c.Sized (.ofArchitecture .x86_64)) ∧
    ∃ l, (ofCells (.ofArchitecture .x86_64) crowdedCells 4100 8).warnings.1 = .ok l ∧
      l.Divides (.ofArchitecture .x86_64) crowdedCells 4100 8 ∧ l.skipped = 1 ∧
      l.fields.fields = [(4088, .array .i8 8), (4096, .f80), (4106, .array .i8 6), (4112, .array .i8 8),
        (4120, .ptr (.func [] .unit))] := by
  have word : 4100 ≤ maxAddress := by decide
  have sized : ∀ c ∈ crowdedCells, c.Sized (.ofArchitecture .x86_64) := by
    simp only [crowdedCells, List.forall_mem_cons]
    exact ⟨⟨by decide, by decide⟩, ⟨by decide, by decide⟩, ⟨by decide, by decide⟩, nofun⟩
  obtain ⟨l, laid, divides⟩ : ∃ l, (ofCells (.ofArchitecture .x86_64) crowdedCells 4100 8).warnings.1 = .ok l ∧
      l.Divides (.ofArchitecture .x86_64) crowdedCells 4100 8 := (ofCells_divides .x86_64 word sized).2 (by decide)
  refine ⟨word, sized, l, laid, divides, ?_⟩
  have whole : (ofCells (.ofArchitecture .x86_64) crowdedCells 4100 8).warnings.1.toOption.map
      (fun l => (l.skipped, l.fields.fields)) = some (1, [(4088, .array .i8 8), (4096, .f80), (4106, .array .i8 6),
        (4112, .array .i8 8), (4120, .ptr (.func [] .unit))]) := by decide +kernel
  rw [laid] at whole
  exact Prod.mk.inj (Option.some.inj whole)

end FrameLayout

end VarRecovery
