import Mathlib
import VarRecovery.Proofs.Region.FrameTiling
import VarRecovery.Proofs.Region.Run

/-!
Runs are the stretches of the bytes that sorted cells access. A run reaches as far as the cells in it, has no byte
without a cell and is tiled by its fields, and the next one lies behind a gap.
-/

set_option autoImplicit false

namespace VarRecovery

namespace FieldList

theorem tiles_bytes (a : Architecture) (start n : Nat) :
    Tiles (.ofArchitecture a) start ((List.range n).map fun k => (start + k, .i8)) (start + n) := by
  induction n with
  | zero => exact tiles_nil start
  | succ n ih =>
    have byte : (DataLayout.ofArchitecture a).size? .i8 = some 1 := by cases a <;> rfl
    rw [List.range_succ, List.map_append]
    exact ih.append (.cons byte (tiles_nil _))

end FieldList

namespace Run

variable {L : DataLayout} {r q : Run} {runs : List Run} {c : Cell} {cells : List Cell}

/-! ### The cells of a run -/

/-- Where the cells in a run end. -/
def ends (cells : List Cell) (r : Run) : Set Nat :=
  {x | ∃ c ∈ cells, r.Spans c.address c.size ∧ x = c.address + c.size}

/-- Some cell starts in a run, as far as the cells before it reach, and ends behind that. -/
def Straddled (cells : List Cell) (r : Run) : Prop :=
  ∃ before c after stop, cells = before ++ c :: after ∧ r.Spans c.address c.size ∧ IsGreatest (r.ends before) stop ∧
    c.address < stop ∧ stop < c.address + c.size

/-- A run is that of the cells in it. -/
structure Gathers (L : DataLayout) (cells : List Cell) (r : Run) : Prop where
  starts : ∃ c ∈ cells, r.fields.start = c.address ∧ r.Spans c.address c.size
  stops : IsGreatest (r.ends cells) r.fields.stop
  covered : ∀ x, r.fields.start ≤ x → x < r.fields.stop → ∃ c ∈ cells, c.address ≤ x ∧ x < c.address + c.size
  packed : r.packed = true ↔ r.Straddled cells
  tiles : (∀ c ∈ cells, c.Sized L) → FieldList.Tiles L r.fields.start r.fields.fields r.fields.stop

theorem ends_congr (same : ∀ d ∈ cells, r.Spans d.address d.size ↔ q.Spans d.address d.size) :
    r.ends cells = q.ends cells := by
  ext x
  refine exists_congr fun d => and_congr_right fun member => ?_
  rw [same d member]

theorem straddled_congr (same : ∀ d ∈ cells, r.Spans d.address d.size ↔ q.Spans d.address d.size) :
    r.Straddled cells ↔ q.Straddled cells := by
  refine exists₄_congr fun before c after stop => and_congr_right fun split => ?_
  subst split
  rw [same c (by simp), ends_congr fun d member => same d (List.mem_append_left _ member)]

theorem mem_ends_concat {x : Nat} : x ∈ r.ends (cells ++ [c]) ↔
    x ∈ r.ends cells ∨ r.Spans c.address c.size ∧ x = c.address + c.size := by
  constructor
  · rintro ⟨d, member, spans, same⟩
    rcases List.mem_append.mp member with before | here
    · exact .inl ⟨d, before, spans, same⟩
    · cases List.mem_singleton.mp here
      exact .inr ⟨spans, same⟩
  · rintro (⟨d, member, spans, same⟩ | ⟨spans, same⟩)
    · exact ⟨d, List.mem_append_left _ member, spans, same⟩
    · exact ⟨c, by simp, spans, same⟩

/-- Of two runs one ends before the other starts, so bytes lie in one at most. -/
theorem Ordered.eq_of_spans {address size : Nat} (ordered : Ordered runs) (one : r ∈ runs) (other : q ∈ runs)
    (first : r.Spans address size) (second : q.Spans address size) : r = q := by
  obtain ⟨apart, -⟩ := ordered
  unfold Spans at first second
  induction runs with
  | nil => cases one
  | cons p runs ih =>
    obtain ⟨gap, rest⟩ := List.pairwise_cons.mp apart
    rcases List.mem_cons.mp one with rfl | later <;> rcases List.mem_cons.mp other with rfl | behind
    · rfl
    · have := gap q behind
      omega
    · have := gap r later
      omega
    · exact ih later behind rest

/-- One more cell straddles a run, or one before it did. -/
theorem straddled_concat : r.Straddled (cells ++ [c]) ↔ r.Straddled cells ∨ r.Spans c.address c.size ∧
    ∃ stop, IsGreatest (r.ends cells) stop ∧ c.address < stop ∧ stop < c.address + c.size := by
  constructor
  · rintro ⟨before, d, after, stop, split, spans, greatest, starts, longer⟩
    rcases List.eq_nil_or_concat after with rfl | ⟨init, last, rfl⟩
    · obtain ⟨rfl, here⟩ := List.append_inj' split rfl
      cases here
      exact .inr ⟨spans, stop, greatest, starts, longer⟩
    · rw [List.concat_eq_append, ← List.cons_append, ← List.append_assoc] at split
      obtain ⟨rfl, -⟩ := List.append_inj' split rfl
      exact .inl ⟨before, d, init, stop, rfl, spans, greatest, starts, longer⟩
  · rintro (⟨before, d, after, stop, rfl, rest⟩ | ⟨spans, stop, rest⟩)
    · exact ⟨before, d, after ++ [c], stop, by simp, rest⟩
    · exact ⟨cells, c, [], stop, rfl, spans, rest⟩

/-! ### One more cell -/

/-- A cell behind a run is none of its cells. -/
theorem Gathers.concat (gathers : r.Gathers L cells) (behind : r.fields.stop < c.address) :
    r.Gathers L (cells ++ [c]) := by
  have outside : ¬r.Spans c.address c.size := fun spans => by
    have := spans.2
    omega
  obtain ⟨first, member, start⟩ := gathers.starts
  refine ⟨⟨first, List.mem_append_left _ member, start⟩, ?_, fun x low high => ?_, ?_, fun sized => ?_⟩
  · have same : r.ends (cells ++ [c]) = r.ends cells := by
      ext x
      simp [mem_ends_concat, outside]
    exact same ▸ gathers.stops
  · obtain ⟨d, member, holds⟩ := gathers.covered x low high
    exact ⟨d, List.mem_append_left _ member, holds⟩
  · rw [straddled_concat, gathers.packed]
    simp [outside]
  · exact gathers.tiles fun d member => sized d (List.mem_append_left _ member)

/-- A cell that starts in a run or where it ends joins it. -/
theorem Gathers.join (gathers : r.Gathers L cells)
    (apart : ∀ d ∈ cells, r.Spans d.address d.size ∨ d.address + d.size < r.fields.start)
    (start : q.fields.start = r.fields.start) (stop : q.fields.stop = max r.fields.stop (c.address + c.size))
    (first : r.fields.start ≤ c.address) (touches : c.address ≤ r.fields.stop)
    (packed : q.packed = true ↔ r.packed = true ∨ c.address < r.fields.stop ∧ r.fields.stop < c.address + c.size)
    (tiles : c.Sized L → FieldList.Tiles L r.fields.start r.fields.fields r.fields.stop →
      FieldList.Tiles L q.fields.start q.fields.fields q.fields.stop) : q.Gathers L (cells ++ [c]) := by
  have here : q.Spans c.address c.size := ⟨by omega, by omega⟩
  -- Growing at the upper end takes in no cell of an earlier run.
  have same (d : Cell) (member : d ∈ cells) : q.Spans d.address d.size ↔ r.Spans d.address d.size := by
    unfold Spans
    rcases apart d member with ⟨low, high⟩ | before <;> omega
  obtain ⟨d, member, begins, spans⟩ := gathers.starts
  refine ⟨⟨d, List.mem_append_left _ member, start.trans begins, (same d member).mpr spans⟩, ?_,
    fun x low high => ?_, ?_, fun sized => ?_⟩
  · obtain ⟨reached, greatest⟩ := gathers.stops
    rw [← ends_congr same] at reached greatest
    rw [stop]
    refine ⟨mem_ends_concat.mpr ?_, fun x ending => ?_⟩
    · rcases Nat.le_total r.fields.stop (c.address + c.size) with longer | within
      · exact .inr ⟨here, Nat.max_eq_right longer⟩
      · rw [Nat.max_eq_left within]
        exact .inl reached
    · rcases mem_ends_concat.mp ending with before | ⟨-, rfl⟩
      · exact Nat.le_trans (greatest before) (Nat.le_max_left _ _)
      · exact Nat.le_max_right _ _
  · by_cases before : x < r.fields.stop
    · obtain ⟨d, member, holds⟩ := gathers.covered x (start ▸ low) before
      exact ⟨d, List.mem_append_left _ member, holds⟩
    · exact ⟨c, by simp, by omega, by omega⟩
  · rw [packed, straddled_concat, straddled_congr same, ends_congr same, gathers.packed]
    refine or_congr_right ⟨fun longer => ⟨here, _, gathers.stops, longer⟩, fun ⟨_, high, greatest, longer⟩ => ?_⟩
    rwa [IsGreatest.unique greatest gathers.stops] at longer
  · obtain ⟨others, own⟩ := List.forall_mem_append.mp sized
    exact tiles (own c (List.mem_singleton_self c)) (gathers.tiles others)

section Extend

variable {a : Architecture}

theorem tiles_push {l : FieldList} (tiles : FieldList.Tiles (.ofArchitecture a) l.start l.fields l.stop)
    (sized : c.Sized (.ofArchitecture a)) (fits : l.stop + c.size ≤ maxAddress) :
    let l' := l.push (.ofArchitecture a) c.ty c.size
    FieldList.Tiles (.ofArchitecture a) l'.start l'.fields l'.stop := by
  have stored := sized.stored_le
  have word : l.stop + c.size < Word.count := Nat.lt_of_le_of_lt fits (by decide)
  have gap := FieldList.tiles_gap a (Nat.add_le_add_left stored l.stop) word
  rw [FieldList.push_eq l _ stored word]
  exact tiles.append (.cons sized.takes.placed.1 gap)

/-- A cell that does not lie behind a run joins it, and leaves it packed if it straddles its end. -/
theorem extend_joins (fits : c.address + c.size ≤ maxAddress) (touches : c.address ≤ r.fields.stop) :
    ∃ q, r.extend (.ofArchitecture a) c (c.address + c.size) = [q] ∧ q.fields.start = r.fields.start ∧
      q.fields.stop = max r.fields.stop (c.address + c.size) ∧
      (q.packed = true ↔ r.packed = true ∨ c.address < r.fields.stop ∧ r.fields.stop < c.address + c.size) ∧
      (c.Sized (.ofArchitecture a) →
        FieldList.Tiles (.ofArchitecture a) r.fields.start r.fields.fields r.fields.stop →
        FieldList.Tiles (.ofArchitecture a) q.fields.start q.fields.fields q.fields.stop) := by
  unfold extend
  by_cases inside : c.address < r.fields.stop
  · rw [if_pos inside]
    by_cases longer : r.fields.stop < c.address + c.size
    · have reached : max r.fields.stop (c.address + c.size) =
          r.fields.stop + (c.address + c.size - r.fields.stop) := by omega
      rw [if_pos longer]
      refine ⟨_, rfl, rfl, rfl, by simp [inside, longer], fun _ tiles => ?_⟩
      simp only [FieldList.fillBytesTo, reached]
      exact tiles.append (FieldList.tiles_bytes a _ _)
    · rw [if_neg longer]
      exact ⟨r, rfl, rfl, (Nat.max_eq_left (Nat.le_of_not_lt longer)).symm, by simp [longer], fun _ tiles => tiles⟩
  · have here : c.address = r.fields.stop := by omega
    have fits' : r.fields.stop + c.size ≤ maxAddress := here ▸ fits
    rw [if_neg inside, if_pos here]
    refine ⟨_, rfl, FieldList.start_push _ _ _ _, ?_, by simp [inside], fun sized tiles => tiles_push tiles sized fits'⟩
    rw [FieldList.stop_push fits', here]
    omega

theorem gathers_ofCell (fits : c.address + c.size ≤ maxAddress) (before : ∀ d ∈ cells, d.address + d.size < c.address) :
    (ofCell (.ofArchitecture a) c).Gathers (.ofArchitecture a) (cells ++ [c]) := by
  obtain ⟨start, stop⟩ := ofCell_spec (L := .ofArchitecture a) (show c.stop = .ok (c.address + c.size) from if_pos fits)
  have here : (ofCell (.ofArchitecture a) c).Spans c.address c.size := ⟨Nat.le_of_eq start, Nat.le_of_eq stop.symm⟩
  -- Only the cell itself is in its run.
  have outside (d : Cell) (member : d ∈ cells) : ¬(ofCell (.ofArchitecture a) c).Spans d.address d.size := by
    rintro ⟨low, -⟩
    have := before d member
    omega
  refine ⟨⟨c, by simp, start, here⟩, ⟨mem_ends_concat.mpr (.inr ⟨here, stop⟩), fun x ending => ?_⟩,
    fun x low high => ⟨c, by simp, by omega, by omega⟩, ?_, fun sized => ?_⟩
  · rcases mem_ends_concat.mp ending with ⟨d, member, spans, -⟩ | ⟨-, rfl⟩
    · exact absurd spans (outside d member)
    · exact Nat.le_of_eq stop.symm
  · refine iff_of_false (by simp [ofCell]) ?_
    rw [straddled_concat]
    rintro (⟨earlier, d, later, -, rfl, spans, -⟩ | ⟨-, high, ⟨⟨d, member, spans, -⟩, -⟩, -⟩)
    · exact outside d (by simp) spans
    · exact outside d member spans
  · exact tiles_push (l := .startAt c.address) (FieldList.tiles_nil _) (sized c (by simp)) fits

/-- After one more cell, the run that it joins, or the two runs there are then, are those of their cells. -/
theorem Gathers.extend (gathers : r.Gathers (.ofArchitecture a) cells)
    (apart : ∀ d ∈ cells, r.Spans d.address d.size ∨ d.address + d.size < r.fields.start)
    (first : r.fields.start ≤ c.address) (fits : c.address + c.size ≤ maxAddress) :
    ∀ q ∈ r.extend (.ofArchitecture a) c (c.address + c.size), q.Gathers (.ofArchitecture a) (cells ++ [c]) := by
  by_cases touches : c.address ≤ r.fields.stop
  · obtain ⟨q, same, start, stop, packed, tiles⟩ := extend_joins (a := a) fits touches
    rw [same]
    exact List.forall_mem_singleton.mpr (gathers.join apart start stop first touches packed tiles)
  · have gap : r.fields.stop < c.address := Nat.lt_of_not_le touches
    have separate : r.extend (.ofArchitecture a) c (c.address + c.size) = [r, ofCell (.ofArchitecture a) c] := by
      rw [Run.extend, if_neg (by omega), if_neg (by omega)]
    have alone : (ofCell (.ofArchitecture a) c).Gathers (.ofArchitecture a) (cells ++ [c]) := by
      refine gathers_ofCell fits fun d member => ?_
      rcases apart d member with ⟨-, high⟩ | before
      · exact Nat.lt_of_le_of_lt high gap
      · exact Nat.lt_of_lt_of_le before first
    rw [separate]
    exact List.forall_mem_cons.mpr ⟨gathers.concat gap, List.forall_mem_singleton.mpr alone⟩

end Extend

/-! ### Runs of cells -/

/-- Runs are the stretches of the bytes of cells. -/
structure Stretches (L : DataLayout) (cells : List Cell) (runs : List Run) : Prop where
  ordered : Ordered runs
  inside : ∀ c ∈ cells, ∃ r ∈ runs, r.Spans c.address c.size
  gathers : ∀ r ∈ runs, r.Gathers L cells

variable {a : Architecture}

theorem Stretches.addCell (stretches : Stretches (.ofArchitecture a) cells runs)
    (later : ∀ d ∈ cells, d.address ≤ c.address) (fits : c.address + c.size ≤ maxAddress) :
    ∃ after, Run.addCell (.ofArchitecture a) runs c = .ok after ∧
      Stretches (.ofArchitecture a) (cells ++ [c]) after := by
  have stop : c.stop = .ok (c.address + c.size) := if_pos fits
  have below (r : Run) (member : r ∈ runs) : r.fields.start ≤ c.address := by
    obtain ⟨d, known, start, -⟩ := (stretches.gathers r member).starts
    exact start ▸ later d known
  obtain ⟨after, added⟩ : ∃ after, Run.addCell (.ofArchitecture a) runs c = .ok after := by
    rw [Run.addCell, stop]
    cases runs.getLast? <;> exact ⟨_, rfl⟩
  obtain ⟨ordered, grown, here, -⟩ := stretches.ordered.addCell below added
  refine ⟨after, added, ordered,
    List.forall_mem_append.mpr ⟨fun d member => ?_, List.forall_mem_singleton.mpr here⟩, ?_⟩
  · obtain ⟨r, inside, low, high⟩ := stretches.inside d member
    obtain ⟨q, still, start, stop⟩ := grown r inside
    exact ⟨q, still, Nat.le_trans (Nat.le_of_eq start) low, Nat.le_trans high stop⟩
  simp only [Run.addCell, stop] at added
  rcases List.eq_nil_or_concat runs with rfl | ⟨init, r, rfl⟩
  · cases added
    refine List.forall_mem_singleton.mpr (gathers_ofCell fits fun d member => ?_)
    obtain ⟨r, inside, -⟩ := stretches.inside d member
    cases inside
  · rw [List.concat_eq_append] at *
    rw [List.getLast?_concat, List.dropLast_concat] at added
    cases added
    have first := below r (by simp)
    have before (p : Run) (member : p ∈ init) : p.fields.stop < r.fields.start :=
      (List.pairwise_append.mp stretches.ordered.apart).2.2 p member r (List.mem_singleton_self r)
    -- A cell so far is in the last run, or in one before it.
    have apart (d : Cell) (member : d ∈ cells) :
        r.Spans d.address d.size ∨ d.address + d.size < r.fields.start := by
      obtain ⟨p, inside, spans⟩ := stretches.inside d member
      rcases List.mem_append.mp inside with other | last
      · exact .inr (Nat.lt_of_le_of_lt spans.2 (before p other))
      · exact .inl (List.mem_singleton.mp last ▸ spans)
    have others (p : Run) (member : p ∈ init) : p.Gathers (.ofArchitecture a) (cells ++ [c]) :=
      (stretches.gathers p (by simp [member])).concat (Nat.lt_of_lt_of_le (before p member) first)
    exact List.forall_mem_append.mpr ⟨others, (stretches.gathers r (by simp)).extend apart first fits⟩

theorem Stretches.addCells {later : List Cell} (stretches : Stretches (.ofArchitecture a) cells runs)
    (ascending : (cells ++ later).Pairwise fun a b => a.address ≤ b.address)
    (fits : ∀ c ∈ later, c.address + c.size ≤ maxAddress) :
    ∃ after, later.foldlM (Run.addCell (.ofArchitecture a)) runs = .ok after ∧
      Stretches (.ofArchitecture a) (cells ++ later) after := by
  induction later generalizing cells runs with
  | nil => exact ⟨runs, rfl, by rwa [List.append_nil]⟩
  | cons c later ih =>
    obtain ⟨here, others⟩ := List.forall_mem_cons.mp fits
    have behind (d : Cell) (member : d ∈ cells) : d.address ≤ c.address :=
      (List.pairwise_append.mp ascending).2.2 d member c List.mem_cons_self
    obtain ⟨mid, added, stretches⟩ := stretches.addCell behind here
    rw [List.append_cons] at ascending ⊢
    obtain ⟨after, rest, final⟩ := ih stretches ascending others
    exact ⟨after, by rw [List.foldlM_cons, added]; exact rest, final⟩

/-- Runs of cells lie one behind the other with gaps between them and have the bytes that the cells access. Each cell is
in one of them. They are tiled by their fields, and packed if a cell straddled the end that they had. -/
theorem ofCells_stretches (a : Architecture) (p : Popularity) {cells : List Cell}
    (fits : ∀ c ∈ cells, c.address + c.size ≤ maxAddress) :
    ∃ runs, ofCells (.ofArchitecture a) (Cell.sort p (.ofArchitecture a) cells) = .ok runs ∧
      (runs.Pairwise fun r q => r.fields.stop < q.fields.start) ∧
      (∀ x, (∃ r ∈ runs, r.fields.start ≤ x ∧ x < r.fields.stop) ↔
        ∃ c ∈ cells, c.address ≤ x ∧ x < c.address + c.size) ∧
      (∀ c ∈ cells, ∃! r, r ∈ runs ∧ r.Spans c.address c.size) ∧
      (∀ r ∈ runs, ∃ c ∈ cells, r.fields.start = c.address ∧ r.Spans c.address c.size) ∧
      (∀ r ∈ runs, r.packed = true ↔ r.Straddled (Cell.sort p (.ofArchitecture a) cells)) ∧
      ((∀ c ∈ cells, c.Sized (.ofArchitecture a)) → ∀ r ∈ runs,
        FieldList.Tiles (.ofArchitecture a) r.fields.start r.fields.fields r.fields.stop) := by
  have sorted := Cell.pairwise_sort p (.ofArchitecture a) cells
  have listed (c : Cell) : c ∈ Cell.sort p (.ofArchitecture a) cells ↔ c ∈ cells := List.mem_mergeSort
  have start : Stretches (.ofArchitecture a) [] [] := ⟨⟨.nil, nofun⟩, nofun, nofun⟩
  obtain ⟨runs, formed, ordered, inside, gathers⟩ := start.addCells (by simpa using sorted)
    fun c member => fits c ((listed c).mp member)
  rw [List.nil_append] at gathers inside
  refine ⟨runs, formed, ordered.apart, fun x => ⟨?_, ?_⟩, fun c member => ?_, fun r member => ?_,
    fun r member => (gathers r member).packed, fun sized r member => ?_⟩
  · rintro ⟨r, member, low, high⟩
    obtain ⟨c, known, holds⟩ := (gathers r member).covered x low high
    exact ⟨c, (listed c).mp known, holds⟩
  · rintro ⟨c, member, low, high⟩
    obtain ⟨r, known, spans⟩ := inside c ((listed c).mpr member)
    exact ⟨r, known, Nat.le_trans spans.1 low, Nat.lt_of_lt_of_le high spans.2⟩
  · obtain ⟨r, known, spans⟩ := inside c ((listed c).mpr member)
    exact ⟨r, ⟨known, spans⟩, fun q ⟨other, also⟩ => ordered.eq_of_spans other known also spans⟩
  · obtain ⟨c, known, first⟩ := (gathers r member).starts
    exact ⟨c, (listed c).mp known, first⟩
  · exact (gathers r member).tiles fun c known => sized c ((listed c).mp known)

/-- An 80-bit float with an integer in it, code behind it of which an integer has the last byte, and behind a gap a byte
that no bytes follow. -/
def scatteredCells : List Cell :=
  [⟨⟨0⟩, 4200, .i8, 1, .plain, ⟨0⟩, ⟨0⟩⟩, ⟨⟨0⟩, 4119, .i16, 2, .plain, ⟨1⟩, ⟨1⟩⟩,
    ⟨⟨0⟩, 4104, .i32, 4, .plain, ⟨2⟩, ⟨2⟩⟩, ⟨⟨0⟩, 4112, .func [] .unit, 8, .plain, ⟨3⟩, ⟨3⟩⟩,
    ⟨⟨0⟩, 4201, .array .i8 0, 0, .plain, ⟨4⟩, ⟨4⟩⟩, ⟨⟨0⟩, 4096, .f80, 16, .plain, ⟨5⟩, ⟨5⟩⟩]

theorem scatteredCells_stretches : (∀ c ∈ scatteredCells, c.address + c.size ≤ maxAddress) ∧
    (∀ c ∈ scatteredCells, c.Sized (.ofArchitecture .x86_64)) ∧
    ∃ runs, ofCells (.ofArchitecture .x86_64) (Cell.sort (.ofCells scatteredCells) (.ofArchitecture .x86_64)
        scatteredCells) = .ok runs ∧
      runs.map (fun r => (r.fields.start, r.fields.stop, r.packed)) = [(4096, 4121, true), (4200, 4201, false)] ∧
      ∀ r ∈ runs, FieldList.Tiles (.ofArchitecture .x86_64) r.fields.start r.fields.fields r.fields.stop := by
  have fits : ∀ c ∈ scatteredCells, c.address + c.size ≤ maxAddress := by decide
  have sized : ∀ c ∈ scatteredCells, c.Sized (.ofArchitecture .x86_64) := by
    simp only [scatteredCells, List.forall_mem_cons]
    exact ⟨⟨by decide, by decide⟩, ⟨by decide, by decide⟩, ⟨by decide, by decide⟩, ⟨by decide, by decide⟩,
      ⟨by decide, by decide⟩, ⟨by decide, by decide⟩, nofun⟩
  obtain ⟨runs, formed, -, -, -, -, -, tiles⟩ := ofCells_stretches .x86_64 (.ofCells scatteredCells) fits
  have whole : (ofCells (.ofArchitecture .x86_64) (Cell.sort (.ofCells scatteredCells) (.ofArchitecture .x86_64)
      scatteredCells)).toOption.map (·.map fun r => (r.fields.start, r.fields.stop, r.packed)) =
        some [(4096, 4121, true), (4200, 4201, false)] := by cbv
  rw [formed] at whole
  exact ⟨fits, sized, runs, formed, Option.some.inj whole, tiles sized⟩

end Run

end VarRecovery
