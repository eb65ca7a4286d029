import Mathlib
import VarRecovery.Proofs.Region.FrameTiling
import VarRecovery.Proofs.Region.Run

/-!
What the order of accesses decides in a frame. Sorted cells lie in the same places however they came, so a frame has the
same ends and the same cells have fields; only of cells that differ in their types alone does the first one count.
-/

set_option autoImplicit false

namespace VarRecovery

namespace Cell

/-- Where a cell begins and how many bytes it has. -/
def range (c : Cell) : Nat × Nat :=
  (c.address, c.size)

/-- A lower address, or the same one and no fewer bytes. -/
def Leads (one other : Nat × Nat) : Prop :=
  one.1 < other.1 ∨ one.1 = other.1 ∧ other.2 ≤ one.2

variable {p q : Popularity} {L : DataLayout} {cells other : List Cell}

theorem leads_of_precedes {a b : Cell} (before : precedes p L a b = true) : Leads a.range b.range := by
  unfold precedes at before
  unfold Leads range
  grind

theorem leads_antisymm {one other : Nat × Nat} (first : Leads one other) (second : Leads other one) : one = other := by
  unfold Leads at first second
  exact Prod.ext (by omega) (by omega)

theorem pairwise_leads_sort (p : Popularity) (L : DataLayout) (cells : List Cell) :
    (sort p L cells).Pairwise fun a b => Leads a.range b.range :=
  (List.pairwise_mergeSort precedes_trans precedes_total cells).imp leads_of_precedes

/-- Whatever decides between cells of one range, sorted cells have their ranges in one order. -/
theorem map_range_sort (p q : Popularity) (L : DataLayout) (perm : cells.Perm other) :
    (sort p L cells).map range = (sort q L other).map range := by
  have shuffled : (sort p L cells).Perm (sort q L other) :=
    (List.mergeSort_perm cells _).trans (perm.trans (List.mergeSort_perm other _).symm)
  refine (shuffled.map range).eq_of_pairwise (fun _ _ _ _ => leads_antisymm) ?_ ?_
  · exact List.pairwise_map.mpr (pairwise_leads_sort p L cells)
  · exact List.pairwise_map.mpr (pairwise_leads_sort q L other)

theorem end_le_of_fits {c : Cell} (fits : ¬c.passesMemory) : c.address + c.size ≤ maxAddress :=
  Nat.le_of_not_lt fun passes => fits (decide_eq_true passes)

end Cell

namespace FieldList

theorem exists_fields_fillTo (l : FieldList) (address : Nat) :
    ∃ padding, (l.fillTo address).fields = l.fields ++ padding :=
  ⟨_, congrArg FieldList.fields (fillTo_eq l address)⟩

theorem exists_fields_push (l : FieldList) (L : DataLayout) (ty : Ty) (size : Nat) :
    ∃ padding, (l.push L ty size).fields = l.fields ++ (l.stop, ty.placed) :: padding := by
  unfold push
  obtain ⟨padding, same⟩ := exists_fields_fillTo
    (l.place ty.placed (Word.wrap (l.stop + min (storedBytes L ty size) size))) _
  exact ⟨padding, same.trans (List.append_assoc _ _ _)⟩

end FieldList

namespace FrameLayout

variable {L : DataLayout} {l : FrameLayout} {c : Cell} {cells other done placed : List Cell} {stop : Nat}

/-! ### Adding cells -/

theorem stop_add (fits : ¬c.passesMemory) (l : FrameLayout) :
    (l.add L c).fields.stop = if c.address < l.fields.stop then l.fields.stop else c.address + c.size := by
  unfold add
  split
  next => rfl
  next free =>
    have reached : (l.fields.fillTo c.address).stop = c.address := by
      rw [FieldList.stop_fillTo, Nat.max_eq_right (Nat.le_of_not_lt free)]
    rw [FieldList.stop_push (reached.symm ▸ Cell.end_le_of_fits fits), reached]

theorem Places.add (places : l.Places done placed) (fits : ¬c.passesMemory) :
    (l.add L c).Places (done ++ [c]) (placed ++ if c.address < l.fields.stop then [] else [c]) := by
  have count := places.count
  unfold FrameLayout.add
  split
  next =>
    rw [List.append_nil]
    refine ⟨places.sublist.trans (List.sublist_append_left _ _), ?_, places.field, places.only⟩
    simp only [List.length_append, List.length_singleton]
    omega
  next free =>
    have word : c.address < Word.count :=
      Nat.lt_of_le_of_lt (Nat.le_trans (Nat.le_add_right _ _) (Cell.end_le_of_fits fits)) (by decide)
    have reached : (l.fields.fillTo c.address).stop = c.address := by
      rw [FieldList.stop_fillTo, Nat.max_eq_right (Nat.le_of_not_lt free)]
    obtain ⟨before, filled⟩ := FieldList.exists_fields_fillTo l.fields c.address
    obtain ⟨behind, pushed⟩ := FieldList.exists_fields_push (l.fields.fillTo c.address) L c.ty c.size
    rw [filled, reached] at pushed
    refine ⟨places.sublist.append (List.Sublist.refl _), ?_, fun d member => ?_, fun field member => ?_⟩
    · simp only [List.length_append, List.length_singleton]
      omega
    · rw [pushed]
      rcases List.mem_append.mp member with earlier | last
      · simp [places.field d earlier]
      · simp [List.mem_singleton.mp last]
    · rcases FieldList.mem_push member with filling | rfl | padding
      · rcases FieldList.mem_fillTo word filling with earlier | padding
        · refine (places.only field earlier).imp_left ?_
          rintro ⟨d, inside, same⟩
          exact ⟨d, List.mem_append_left _ inside, same⟩
        · exact .inr padding
      · exact .inl ⟨c, by simp, by rw [reached]⟩
      · exact .inr padding

theorem placedFrom_cons (stop : Nat) (c : Cell) (cells : List Cell) : placedFrom stop (c :: cells) =
    (if c.address < stop then [] else [c]) ++
      placedFrom (if c.address < stop then stop else c.address + c.size) cells := by
  rw [placedFrom]
  split <;> rfl

/-- Each cell that begins behind the fields before it gets one. -/
theorem Places.foldl_add (places : l.Places done placed) (fits : ∀ c ∈ cells, ¬c.passesMemory) :
    (cells.foldl (FrameLayout.add L) l).Places (done ++ cells) (placed ++ placedFrom l.fields.stop cells) ∧
      (cells.foldl (FrameLayout.add L) l).base = l.base ∧
      (cells.foldl (FrameLayout.add L) l).fields.stop = stopAfter l.fields.stop cells := by
  induction cells generalizing l done placed with
  | nil => exact ⟨by simpa [placedFrom] using places, rfl, rfl⟩
  | cons c cells ih =>
    obtain ⟨here, others⟩ := List.forall_mem_cons.mp fits
    obtain ⟨all, base, last⟩ := ih (places.add (L := L) here) others
    have kept : (l.add L c).base = l.base := by
      unfold FrameLayout.add
      split <;> rfl
    rw [stop_add here, List.append_assoc, List.append_assoc, ← placedFrom_cons] at all
    rw [stop_add here] at last
    exact ⟨all, base.trans kept, last⟩

/-! ### What ranges decide -/

theorem placedFrom_congr (stop : Nat) (same : cells.map Cell.range = other.map Cell.range) :
    (placedFrom stop cells).map Cell.range = (placedFrom stop other).map Cell.range ∧
      stopAfter stop cells = stopAfter stop other := by
  induction cells generalizing stop other with
  | nil =>
    rw [List.map_nil] at same
    rw [List.map_eq_nil_iff.mp same.symm]
    exact ⟨rfl, rfl⟩
  | cons c cells ih =>
    obtain ⟨d, others, rfl, here, rest⟩ := List.map_eq_cons_iff.mp same.symm
    obtain ⟨address, size⟩ := Prod.mk.inj here
    obtain ⟨places, stops⟩ := ih (if c.address < stop then stop else c.address + c.size) rest.symm
    rw [placedFrom_cons, placedFrom_cons, stopAfter, stopAfter, address, size, List.map_append, List.map_append]
    exact ⟨by rw [places]; split <;> simp [here], stops⟩

theorem find?_passesMemory_congr (same : cells.map Cell.range = other.map Cell.range) :
    (cells.find? Cell.passesMemory).map Cell.range = (other.find? Cell.passesMemory).map Cell.range := by
  have whole (cells : List Cell) : (cells.find? Cell.passesMemory).map Cell.range =
      (cells.map Cell.range).find? fun r => maxAddress < r.1 + r.2 := by
    rw [List.find?_map]
    rfl
  rw [whole, whole, same]

theorem highest_congr (same : cells.map Cell.range = other.map Cell.range) (stackPointer : Nat) :
    highest cells stackPointer = highest other stackPointer := by
  have whole (cells : List Cell) : highest cells stackPointer =
      (cells.map Cell.range).foldl (fun high r => max high (r.1 + r.2)) stackPointer := by
    rw [List.foldl_map]
    rfl
  rw [whole, whole, same]

theorem baseOf_congr (same : cells.map Cell.range = other.map Cell.range) (stackPointer redzone : Nat) :
    baseOf cells stackPointer redzone = baseOf other stackPointer redzone := by
  have whole (cells : List Cell) : baseOf cells stackPointer redzone =
      (cells.map Cell.range).foldl (fun low r => min low r.1) stackPointer - redzone := by
    rw [List.foldl_map]
    rfl
  rw [whole, whole, same]

theorem le_address_of_mem_placedFrom (member : c ∈ placedFrom stop cells) : stop ≤ c.address := by
  induction cells generalizing stop with
  | nil => cases member
  | cons d cells ih =>
    rw [placedFrom] at member
    split at member
    next => exact ih member
    next free =>
      rcases List.mem_cons.mp member with rfl | later
      · exact Nat.le_of_not_lt free
      · have := ih later
        omega

/-- Of the cells at an address the largest come first, and only cells without bytes have a field behind others there. -/
theorem size_le_of_mem_placedFrom (sorted : cells.Pairwise fun a b => Cell.Leads a.range b.range)
    (member : c ∈ placedFrom stop cells) {d : Cell} (among : d ∈ cells) (same : d.address = c.address) :
    d.size ≤ c.size := by
  induction cells generalizing stop with
  | nil => cases among
  | cons e cells ih =>
    obtain ⟨leads, rest⟩ := List.pairwise_cons.mp sorted
    have first (d : Cell) (behind : d ∈ cells) (same : d.address = e.address) : d.size ≤ e.size := by
      rcases leads d behind with lower | ⟨-, larger⟩
      · exact absurd lower (by simp [Cell.range, same])
      · exact larger
    rw [placedFrom] at member
    split at member
    next overlaps =>
      -- A cell that overlaps what is placed starts before all cells that are placed later.
      rcases List.mem_cons.mp among with rfl | behind
      · have := le_address_of_mem_placedFrom member
        omega
      · exact ih rest member behind
    next free =>
      rcases List.mem_cons.mp member with rfl | later
      · rcases List.mem_cons.mp among with rfl | behind
        · exact Nat.le_refl _
        · exact first d behind same
      · rcases List.mem_cons.mp among with rfl | behind
        · have := le_address_of_mem_placedFrom later
          omega
        · exact ih rest later behind

/-! ### The frame of cells -/

/-- The frame of cells that end in memory. -/
def whole (L : DataLayout) (cells : List Cell) (stackPointer redzone : Nat) : FrameLayout :=
  let base := baseOf cells stackPointer redzone
  let l := cells.foldl (FrameLayout.add L) ⟨base, .startAt base, 0⟩
  { l with fields := l.fields.fillTo (highest cells stackPointer) }

theorem warnings_ofCells (L : DataLayout) (cells : List Cell) (stackPointer redzone : Nat) :
    (ofCells L cells stackPointer redzone).warnings.1 =
      match cells.find? Cell.passesMemory with
      | some c => .error (.addressOverflow c.address c.size)
      | none => .ok (whole L cells stackPointer redzone) := by
  obtain ⟨stop, run⟩ := run_foldlM_addCell (L := L) cells
    ⟨baseOf cells stackPointer redzone, .startAt (baseOf cells stackPointer redzone), 0⟩ stackPointer []
  unfold ofCells Recovering.warnings
  dsimp only
  rw [ExceptT.run_bind, StateT.run_bind, run]
  cases cells.find? Cell.passesMemory <;> rfl

/-- What lies where in a frame for cells in some order. -/
theorem whole_places {stackPointer : Nat} (word : stackPointer ≤ maxAddress) (redzone : Nat)
    (fits : ∀ c ∈ cells, ¬c.passesMemory) :
    (whole L cells stackPointer redzone).base = baseOf cells stackPointer redzone ∧
      (whole L cells stackPointer redzone).fields.stop =
        max (stopAfter (baseOf cells stackPointer redzone) cells) (highest cells stackPointer) ∧
      (whole L cells stackPointer redzone).Places cells (placedFrom (baseOf cells stackPointer redzone) cells) := by
  have empty (base : Nat) : Places ⟨base, .startAt base, 0⟩ [] [] := ⟨.refl _, rfl, nofun, nofun⟩
  obtain ⟨places, base, last⟩ := (empty (baseOf cells stackPointer redzone)).foldl_add (L := L) fits
  have bound : highest cells stackPointer < Word.count := by
    rcases (isGreatest_highest cells stackPointer).1 with same | ⟨c, member, same⟩
    · exact Nat.lt_of_le_of_lt (Nat.le_trans (Nat.le_of_eq same) word) (by decide)
    · exact Nat.lt_of_le_of_lt (Nat.le_trans (Nat.le_of_eq same) (Cell.end_le_of_fits (fits c member))) (by decide)
  refine ⟨base, ?_, places.sublist, places.count, fun c member => ?_, fun field member => ?_⟩
  · exact (FieldList.stop_fillTo _ _).trans (by rw [last]; rfl)
  · obtain ⟨padding, filled⟩ := FieldList.exists_fields_fillTo _ (highest cells stackPointer)
    exact filled ▸ List.mem_append_left _ (places.field c member)
  · rcases FieldList.mem_fillTo bound member with before | padding
    · exact places.only field before
    · exact .inr padding

/-- Frames for the same ranges in the same order have fields for the same of them. -/
theorem whole_congr {stackPointer : Nat} (word : stackPointer ≤ maxAddress) (redzone : Nat)
    (same : cells.map Cell.range = other.map Cell.range) (fits : ∀ c ∈ cells, ¬c.passesMemory)
    (fits' : ∀ c ∈ other, ¬c.passesMemory) :
    let l := whole L cells stackPointer redzone
    let k := whole L other stackPointer redzone
    l.base = k.base ∧ l.fields.stop = k.fields.stop ∧ l.skipped = k.skipped ∧
      l.Places cells (placedFrom l.base cells) ∧ k.Places other (placedFrom k.base other) ∧
      (placedFrom l.base cells).map Cell.range = (placedFrom k.base other).map Cell.range := by
  obtain ⟨base, stop, places⟩ := whole_places (L := L) word redzone fits
  obtain ⟨base', stop', places'⟩ := whole_places (L := L) word redzone fits'
  rw [← baseOf_congr same] at base' stop' places'
  rw [← highest_congr same, ← (placedFrom_congr _ same).2] at stop'
  have ranges := (placedFrom_congr (baseOf cells stackPointer redzone) same).1
  -- Each cell has a field or is skipped, and as many have fields in the one as in the other.
  have skipped : (whole L cells stackPointer redzone).skipped = (whole L other stackPointer redzone).skipped := by
    have count := places.count
    have count' := places'.count
    have lengths := congrArg List.length ranges
    have all := congrArg List.length same
    simp only [List.length_map] at lengths all
    omega
  intro l k
  rw [show l.base = _ from base, show k.base = _ from base']
  exact ⟨rfl, stop.trans stop'.symm, skipped, places, places', ranges⟩

/-- The frame of cells, sorted by how often the types at an address are accessed. -/
def ofUnsorted (L : DataLayout) (cells : List Cell) (stackPointer redzone : Nat) : Except RecoveryError FrameLayout :=
  (ofCells L (Cell.sort (.ofCells cells) L cells) stackPointer redzone).warnings.1

/-- In whatever order cells come, their frame fails for one reason, or it has the same ends and the cells with a field
have the same ranges. Each of them is a largest cell at its address. -/
theorem ofUnsorted_perm (L : DataLayout) (perm : cells.Perm other) {stackPointer : Nat}
    (word : stackPointer ≤ maxAddress) (redzone : Nat) :
    (∃ e, ofUnsorted L cells stackPointer redzone = .error e ∧ ofUnsorted L other stackPointer redzone = .error e) ∨
    ∃ l k, ofUnsorted L cells stackPointer redzone = .ok l ∧ ofUnsorted L other stackPointer redzone = .ok k ∧
      l.base = k.base ∧ l.fields.stop = k.fields.stop ∧ l.skipped = k.skipped ∧
      let placed := placedFrom l.base (Cell.sort (.ofCells cells) L cells)
      let placed' := placedFrom k.base (Cell.sort (.ofCells other) L other)
      l.Places (Cell.sort (.ofCells cells) L cells) placed ∧ k.Places (Cell.sort (.ofCells other) L other) placed' ∧
        placed.map Cell.range = placed'.map Cell.range ∧
        ∀ c ∈ placed ++ placed', ∀ d ∈ cells, d.address = c.address → d.size ≤ c.size := by
  have same := Cell.map_range_sort (.ofCells cells) (.ofCells other) L perm
  have first (c : Cell) : c ∈ Cell.sort (.ofCells cells) L cells ↔ c ∈ cells := List.mem_mergeSort
  have second (c : Cell) : c ∈ Cell.sort (.ofCells other) L other ↔ c ∈ cells :=
    List.mem_mergeSort.trans perm.mem_iff.symm
  have sorted := Cell.pairwise_leads_sort (.ofCells cells) L cells
  have sorted' := Cell.pairwise_leads_sort (.ofCells other) L other
  unfold ofUnsorted
  rw [warnings_ofCells, warnings_ofCells]
  generalize Cell.sort (.ofCells cells) L cells = xs at same first sorted ⊢
  generalize Cell.sort (.ofCells other) L other = ys at same second sorted' ⊢
  -- From here on the two orders are alike in their ranges, and ranges decide which cell fails.
  have passing := find?_passesMemory_congr same
  cases one : xs.find? Cell.passesMemory with
  | some c =>
    rw [one] at passing
    obtain ⟨d, two, range⟩ := Option.map_eq_some_iff.mp passing.symm
    obtain ⟨address, size⟩ := Prod.mk.inj range
    exact .inl ⟨_, rfl, by rw [two]; simp only [address, size]⟩
  | none =>
    rw [one] at passing
    have two := Option.map_eq_none_iff.mp passing.symm
    obtain ⟨base, stop, skipped, places, places', ranges⟩ :=
      whole_congr (L := L) word redzone same (List.find?_eq_none.mp one) (List.find?_eq_none.mp two)
    refine .inr ⟨_, _, rfl, by rw [two], base, stop, skipped, places, places', ranges, fun c member d among here => ?_⟩
    rcases List.mem_append.mp member with inFirst | inSecond
    · exact size_le_of_mem_placedFrom sorted inFirst ((first d).mpr among) here
    · exact size_le_of_mem_placedFrom sorted' inSecond ((second d).mpr among) here

/-- A float and an integer at one address, a pointer and an integer at another, and a number within these. -/
def tiedCells : List Cell :=
  [⟨⟨0⟩, 4112, .f32, 4, .plain, ⟨0⟩, ⟨0⟩⟩, ⟨⟨0⟩, 4096, .i64, 8, .plain, ⟨1⟩, ⟨1⟩⟩,
    ⟨⟨0⟩, 4112, .i32, 4, .plain, ⟨2⟩, ⟨2⟩⟩, ⟨⟨0⟩, 4100, .i16, 2, .plain, ⟨3⟩, ⟨3⟩⟩,
    ⟨⟨0⟩, 4096, .ptr .i8, 8, .plain, ⟨4⟩, ⟨4⟩⟩]

/-- In the other order the integer has the field that the float has here. -/
theorem tiedCells_framed : tiedCells.Perm tiedCells.reverse ∧ 4120 ≤ maxAddress ∧
    ∃ l k, ofUnsorted (.ofArchitecture .x86_64) tiedCells 4120 16 = .ok l ∧
      ofUnsorted (.ofArchitecture .x86_64) tiedCells.reverse 4120 16 = .ok k ∧
      l.base = k.base ∧ l.fields.stop = k.fields.stop ∧ l.skipped = k.skipped ∧
      l.fields.types = [.array .i8 16, .ptr .i8, .array .i8 8, .f32, .array .i8 4] ∧
      k.fields.types = [.array .i8 16, .ptr .i8, .array .i8 8, .i32, .array .i8 4] := by
  have perm : tiedCells.Perm tiedCells.reverse := (List.reverse_perm _).symm
  have word : 4120 ≤ maxAddress := by decide
  have first : (ofUnsorted (.ofArchitecture .x86_64) tiedCells 4120 16).toOption.map (·.fields.types) =
      some [.array .i8 16, .ptr .i8, .array .i8 8, .f32, .array .i8 4] := by cbv
  have second : (ofUnsorted (.ofArchitecture .x86_64) tiedCells.reverse 4120 16).toOption.map (·.fields.types) =
      some [.array .i8 16, .ptr .i8, .array .i8 8, .i32, .array .i8 4] := by cbv
  rcases ofUnsorted_perm (.ofArchitecture .x86_64) perm word 16 with
    ⟨e, failed, -⟩ | ⟨l, k, one, two, base, stop, skipped, -⟩
  · rw [failed] at first
    cases first
  · rw [one] at first
    rw [two] at second
    exact ⟨perm, word, l, k, one, two, base, stop, skipped, Option.some.inj first, Option.some.inj second⟩

end FrameLayout

end VarRecovery
