import VarRecovery.Proofs.Recovering
import VarRecovery.Proofs.Region.FieldList
import VarRecovery.Region.Frame

/-!
Where the cells of a frame lie. A frame has a field for each cell that it does not skip, and its struct has
the fields at their addresses exactly if all of them store all the bytes they take.
-/

set_option autoImplicit false

namespace VarRecovery

theorem Cell.stop_ok {c : Cell} {stop : Nat} (h : c.stop = .ok stop) :
    stop = c.address + c.size ∧ stop ≤ maxAddress := by
  unfold Cell.stop at h
  split at h <;> cases h
  exact ⟨rfl, by assumption⟩

namespace FrameLayout

theorem addCell_ok {L : DataLayout} {l l' : FrameLayout} {highest highest' : Nat} {c : Cell}
    {ws stop : List Warning} (h : (addCell L (l, highest) c).run.run ws = (.ok (l', highest'), stop)) :
    c.address + c.size ≤ maxAddress ∧ highest' = max highest (c.address + c.size) ∧
      ((c.address < l.fields.stop ∧ l' = { l with skipped := l.skipped + 1 }) ∨
        (l.fields.stop ≤ c.address ∧
          l' = { l with fields := (l.fields.fillTo c.address).push L c.ty c.size })) := by
  unfold addCell at h
  obtain ⟨last, mid, first, rest⟩ := Recovering.bind_ok h
  obtain ⟨same, rfl⟩ := Recovering.lift_ok first
  obtain ⟨rfl, fits⟩ := Cell.stop_ok same
  split at rest
  next overlaps =>
    obtain ⟨_, later, -, done⟩ := Recovering.bind_ok rest
    obtain ⟨same, -⟩ := Recovering.pure_ok done
    cases same
    exact ⟨fits, rfl, .inl ⟨overlaps, rfl⟩⟩
  next free =>
    obtain ⟨same, -⟩ := Recovering.pure_ok rest
    cases same
    exact ⟨fits, rfl, .inr ⟨Nat.le_of_not_lt free, rfl⟩⟩

/-- The cells that have a field each. The others are skipped, and the other fields are padding. -/
structure Places (l : FrameLayout) (cells placed : List Cell) : Prop where
  sublist : placed.Sublist cells
  count : placed.length + l.skipped = cells.length
  field : ∀ c ∈ placed, (c.address, c.ty.placed) ∈ l.fields.fields
  only : ∀ field ∈ l.fields.fields,
    (∃ c ∈ placed, field = (c.address, c.ty.placed)) ∨ FieldList.IsPadding field.2

/-- What holds of a frame with some cells added to it: its fields span it, and those cells that are not
skipped have theirs. -/
structure Covers (L : DataLayout) (base : Nat) (cells : List Cell) (l : FrameLayout) (highest : Nat) :
    Prop where
  base_eq : l.base = base
  start_eq : l.fields.start = base
  spans : FieldList.Spans L l.fields.start l.fields.fields l.fields.stop
  stop_le : l.fields.stop ≤ highest
  highest_le : highest ≤ maxAddress
  placed : ∃ placed, l.Places cells placed

theorem Covers.addCell {a : Architecture} {base : Nat} {cells : List Cell} {l l' : FrameLayout}
    {highest highest' : Nat} {c : Cell} {ws stop : List Warning}
    (covers : Covers (.ofArchitecture a) base cells l highest)
    (takes : FieldList.Takes (.ofArchitecture a) c.ty c.size)
    (h : (addCell (.ofArchitecture a) (l, highest) c).run.run ws = (.ok (l', highest'), stop)) :
    Covers (.ofArchitecture a) base (cells ++ [c]) l' highest' := by
  have word : maxAddress < Word.count := by decide
  obtain ⟨fits, rfl, ⟨overlaps, rfl⟩ | ⟨free, rfl⟩⟩ := addCell_ok h
  all_goals
    have bound := covers.highest_le
    have below := covers.stop_le
    obtain ⟨placed, places⟩ := covers.placed
    have count := places.count
  · refine ⟨covers.base_eq, covers.start_eq, covers.spans, ?_, ?_, placed, ?_, ?_, places.field, places.only⟩
    · exact Nat.le_trans below (Nat.le_max_left _ _)
    · exact Nat.max_le.mpr ⟨bound, fits⟩
    · exact places.sublist.trans (List.sublist_append_left _ _)
    · simp only [List.length_append, List.length_singleton]
      omega
  · obtain ⟨filled, start, last, kept⟩ :=
      FieldList.spans_fillTo covers.spans c.address (by omega)
    have here : (l.fields.fillTo c.address).stop = c.address := last.trans (Nat.max_eq_right free)
    obtain ⟨spans, start', last', field, kept'⟩ := FieldList.spans_push filled takes (by omega)
    rw [here] at last' field
    refine ⟨covers.base_eq, ?_, spans, ?_, ?_, placed ++ [c], ?_, ?_, ?_, fun other member => ?_⟩
    · exact start'.trans (start.trans covers.start_eq)
    · exact Nat.le_trans (Nat.le_of_eq last') (Nat.le_max_right _ _)
    · exact Nat.max_le.mpr ⟨bound, fits⟩
    · exact places.sublist.append (List.Sublist.refl _)
    · simp only [List.length_append, List.length_singleton]
      omega
    · intro d member
      rcases List.mem_append.mp member with before | last
      · exact kept' _ (kept _ (places.field d before))
      · rw [List.mem_singleton.mp last]
        exact field
    · rcases FieldList.mem_push member with filling | rfl | padding
      · rcases FieldList.mem_fillTo (by omega) filling with before | padding
        · refine (places.only other before).imp_left ?_
          rintro ⟨d, inside, same⟩
          exact ⟨d, List.mem_append_left _ inside, same⟩
        · exact .inr padding
      · rw [here]
        exact .inl ⟨c, by simp, rfl⟩
      · exact .inr padding

theorem foldl_min_le (cells : List Cell) (low : Nat) :
    cells.foldl (fun low c => min low c.address) low ≤ low := by
  induction cells generalizing low with
  | nil => exact Nat.le_refl low
  | cons c cells ih => exact Nat.le_trans (ih _) (Nat.min_le_left _ _)

theorem baseOf_le (cells : List Cell) (stackPointer redzone : Nat) :
    baseOf cells stackPointer redzone ≤ stackPointer :=
  Nat.le_trans (Nat.sub_le _ _) (foldl_min_le cells stackPointer)

theorem ofCells_ok {a : Architecture} {cells : List Cell} {stackPointer redzone : Nat} {l : FrameLayout}
    {ws stop : List Warning} (word : stackPointer ≤ maxAddress)
    (takes : ∀ c ∈ cells, FieldList.Takes (.ofArchitecture a) c.ty c.size)
    (h : (ofCells (.ofArchitecture a) cells stackPointer redzone).run.run ws = (.ok l, stop)) :
    l.fields.start = l.base ∧
      FieldList.Spans (.ofArchitecture a) l.fields.start l.fields.fields l.fields.stop ∧
      l.fields.stop ≤ maxAddress ∧ ∃ placed, l.Places cells placed := by
  unfold ofCells at h
  have low := baseOf_le cells stackPointer redzone
  generalize baseOf cells stackPointer redzone = base at h low ⊢
  obtain ⟨⟨reached, highest⟩, mid, added, done⟩ := Recovering.bind_ok h
  obtain ⟨rfl, -⟩ := Recovering.pure_ok done
  have start : Covers (.ofArchitecture a) base [] ⟨base, .startAt base, 0⟩ stackPointer :=
    ⟨rfl, rfl, rfl, low, word, [], .refl _, rfl, nofun, nofun⟩
  have covers : Covers (.ofArchitecture a) base cells reached highest :=
    Recovering.foldlM_ok (motive := fun done reached => Covers (.ofArchitecture a) base done reached.1 reached.2)
      start (fun done c l l' ws stop member before step => before.addCell (takes c member) step) added
  have last : highest < Word.count := Nat.lt_of_le_of_lt covers.highest_le (by decide)
  obtain ⟨spans, first, stops, kept⟩ := FieldList.spans_fillTo covers.spans highest last
  obtain ⟨placed, places⟩ := covers.placed
  refine ⟨?_, spans, ?_, placed, places.sublist, places.count, ?_, ?_⟩
  · exact first.trans (covers.start_eq.trans covers.base_eq.symm)
  · exact stops ▸ Nat.max_le.mpr ⟨Nat.le_trans covers.stop_le covers.highest_le, covers.highest_le⟩
  · exact fun c member => kept _ (places.field c member)
  · intro field member
    rcases FieldList.mem_fillTo last member with before | padding
    · exact places.only field before
    · exact .inr padding

/-- The packed struct of a frame is what was laid out, exactly if the cells that have fields are of types
that store all the bytes they take. -/
theorem Places.isRealizedBy_iff {a : Architecture} {l : FrameLayout} {cells placed : List Cell} (name : String)
    (places : l.Places cells placed)
    (spans : FieldList.Spans (.ofArchitecture a) l.fields.start l.fields.fields l.fields.stop)
    (fits : l.fields.stop ≤ maxAddress) :
    l.fields.IsRealizedBy (.ofArchitecture a) (.struct name l.fields.types true) ↔
      ∀ c ∈ placed, (DataLayout.ofArchitecture a).Fills c.ty.placed := by
  rw [FieldList.isRealizedBy_packed_iff name spans (Nat.lt_of_le_of_lt fits (by decide))]
  refine List.forall_mem_map.trans ⟨fun all c member => all _ (places.field c member), ?_⟩
  intro all field member
  rcases places.only field member with ⟨c, inside, rfl⟩ | padding
  · exact all c inside
  · exact padding.fills

end FrameLayout
end VarRecovery
