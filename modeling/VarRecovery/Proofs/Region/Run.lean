import VarRecovery.Access.Popularity
import VarRecovery.Proofs.Recovering
import VarRecovery.Region.Run

/-!
Runs of sorted cells: one behind the other with a gap between them, so that each cell lies in one.
-/

set_option autoImplicit false

namespace VarRecovery

namespace Cell

variable {p : Popularity} {L : DataLayout}

theorem precedes_trans (a b c : Cell) (first : precedes p L a b = true) (second : precedes p L b c = true) :
    precedes p L a c = true := by
  unfold precedes at *
  grind

theorem precedes_total (a b : Cell) : (precedes p L a b || precedes p L b a) = true := by
  unfold precedes
  grind

theorem address_le_of_precedes {a b : Cell} (before : precedes p L a b = true) : a.address ≤ b.address := by
  unfold precedes at before
  grind

theorem pairwise_sort (p : Popularity) (L : DataLayout) (cells : List Cell) :
    (sort p L cells).Pairwise fun a b => a.address ≤ b.address :=
  (List.pairwise_mergeSort precedes_trans precedes_total cells).imp address_le_of_precedes

theorem stop_eq_ok {c : Cell} {stop : Nat} (h : c.stop = .ok stop) :
    stop = c.address + c.size ∧ stop ≤ maxAddress := by
  unfold Cell.stop at h
  split at h
  next inside => cases h; exact ⟨rfl, inside⟩
  next => cases h

end Cell

namespace FieldList

variable {L : DataLayout} {l : FieldList} {ty : Ty} {size : Nat}

theorem start_fillTo (l : FieldList) (address : Nat) : (l.fillTo address).start = l.start := by
  unfold fillTo
  split <;> rfl

theorem stop_fillTo (l : FieldList) (address : Nat) : (l.fillTo address).stop = max l.stop address := by
  unfold fillTo
  split
  next below => exact (Nat.max_eq_right (Nat.le_of_lt below)).symm
  next above => exact (Nat.max_eq_left (Nat.le_of_not_lt above)).symm

theorem start_push (l : FieldList) (L : DataLayout) (ty : Ty) (size : Nat) :
    (l.push L ty size).start = l.start :=
  start_fillTo _ _

/-- However many bytes a field stores, it takes those that its cell has. -/
theorem stop_push (fits : l.stop + size ≤ maxAddress) : (l.push L ty size).stop = l.stop + size := by
  have inside : l.stop + size < Word.count := Nat.lt_of_le_of_lt fits (by decide)
  rw [push, stop_fillTo]
  simp only [place]
  rw [Word.wrap_of_lt (n := l.stop + min (storedBytes L ty size) size) (by omega), Word.wrap_of_lt (by omega)]
  omega

end FieldList

namespace Run

/-- Whether bytes lie in a run. -/
def Spans (r : Run) (address size : Nat) : Prop :=
  r.fields.start ≤ address ∧ address + size ≤ r.fields.stop

/-- Runs one behind the other, with a gap between them. -/
structure Ordered (runs : List Run) : Prop where
  apart : runs.Pairwise fun r q => r.fields.stop < q.fields.start
  whole : ∀ r ∈ runs, r.fields.start ≤ r.fields.stop ∧ r.fields.stop ≤ maxAddress

variable {L : DataLayout} {r q : Run} {runs after : List Run} {c : Cell} {cells : List Cell} {stop : Nat}

theorem ofCell_spec (ends : c.stop = .ok stop) : (ofCell L c).fields.start = c.address ∧
    (ofCell L c).fields.stop = stop := by
  obtain ⟨rfl, inside⟩ := Cell.stop_eq_ok ends
  exact ⟨FieldList.start_push _ _ _ _, FieldList.stop_push inside⟩

/-- A cell joins a run, which goes on at least as far, or starts the next one behind a gap. -/
theorem extend_spec (ends : c.stop = .ok stop) :
    (∃ q, r.extend L c stop = [q] ∧ q.fields.start = r.fields.start ∧
      q.fields.stop = max r.fields.stop stop) ∨
    (r.extend L c stop = [r, ofCell L c] ∧ r.fields.stop < c.address) := by
  obtain ⟨rfl, inside⟩ := Cell.stop_eq_ok ends
  unfold extend
  split
  next =>
    left
    split
    next longer => exact ⟨_, rfl, rfl, rfl⟩
    next within => exact ⟨_, rfl, rfl, (Nat.max_eq_left (Nat.le_of_not_lt within)).symm⟩
  next behind =>
    split
    next here =>
      left
      refine ⟨_, rfl, FieldList.start_push _ _ _ _, ?_⟩
      rw [FieldList.stop_push (here ▸ inside), ← here]
      omega
    next gap => exact .inr ⟨rfl, by omega⟩

/-- What stays of runs: each goes on at least as far. -/
def Grown (runs after : List Run) : Prop :=
  ∀ r ∈ runs, ∃ q ∈ after, q.fields.start = r.fields.start ∧ r.fields.stop ≤ q.fields.stop

theorem Ordered.addCell (ordered : Ordered runs) (below : ∀ r ∈ runs, r.fields.start ≤ c.address)
    (h : addCell L runs c = .ok after) :
    Ordered after ∧ Grown runs after ∧ (∃ r ∈ after, r.Spans c.address c.size) ∧
      ∀ r ∈ after, r.fields.start ≤ c.address := by
  unfold Run.addCell at h
  obtain ⟨stop, ends, h⟩ := Recovering.bind_eq_ok h
  obtain ⟨rfl, inside⟩ := Cell.stop_eq_ok ends
  have new := ofCell_spec (L := L) ends
  rcases List.eq_nil_or_concat runs with rfl | ⟨init, r, rfl⟩
  · cases h
    refine ⟨⟨List.pairwise_singleton _ _, ?_⟩, nofun, ⟨_, List.mem_singleton_self _, ?_⟩, ?_⟩
    · simpa [new] using inside
    · simp [Spans, new]
    · simp [new]
  -- Cells come by address, so only the last run can meet the new one.
  · rw [List.concat_eq_append] at *
    rw [List.getLast?_concat, List.dropLast_concat] at h
    cases h
    obtain ⟨first, -, between⟩ := List.pairwise_append.mp ordered.apart
    obtain ⟨start, stop⟩ := ordered.whole r (by simp)
    have before (q : Run) (member : q ∈ init) : q.fields.stop < r.fields.start :=
      between q member r (List.mem_singleton_self r)
    have here := below r (by simp)
    rcases extend_spec (L := L) (r := r) ends with ⟨q, same, start', stop'⟩ | ⟨same, gap⟩
    · rw [same]
      refine ⟨⟨?apart, ?whole⟩, ?grown, ⟨q, by simp, ?spans⟩, ?below⟩
      case apart =>
        refine List.pairwise_append.mpr ⟨first, List.pairwise_singleton _ _, fun p member _ last => ?_⟩
        rw [List.mem_singleton.mp last, start']
        exact before p member
      case whole =>
        simp only [List.forall_mem_append, List.forall_mem_singleton]
        exact ⟨fun p member => ordered.whole p (by simp [member]), by omega⟩
      case grown =>
        simp only [Grown, List.forall_mem_append, List.forall_mem_singleton]
        exact ⟨fun p member => ⟨p, by simp [member], rfl, Nat.le_refl _⟩, q, by simp, start', by omega⟩
      case spans => exact ⟨by omega, by omega⟩
      case below =>
        simp only [List.forall_mem_append, List.forall_mem_singleton]
        exact ⟨fun p member => below p (by simp [member]), by omega⟩
    · rw [same, List.append_cons]
      have last (p : Run) (member : p ∈ init ++ [r]) : p.fields.stop ≤ r.fields.stop := by
        rcases List.mem_append.mp member with other | self
        · exact Nat.le_trans (Nat.le_of_lt (before p other)) start
        · exact List.mem_singleton.mp self ▸ Nat.le_refl _
      refine ⟨⟨?apart, ?whole⟩, fun p member => ⟨p, List.mem_append_left _ member, rfl, Nat.le_refl _⟩,
        ⟨ofCell L c, by simp, ?spans⟩, ?below⟩
      case apart =>
        refine List.pairwise_append.mpr ⟨ordered.apart, List.pairwise_singleton _ _, fun p member _ self => ?_⟩
        rw [List.mem_singleton.mp self, new.1]
        exact Nat.lt_of_le_of_lt (last p member) gap
      case whole =>
        refine List.forall_mem_append.mpr ⟨ordered.whole, List.forall_mem_singleton.mpr ?_⟩
        omega
      case spans => exact ⟨by omega, by omega⟩
      case below => exact List.forall_mem_append.mpr ⟨below, List.forall_mem_singleton.mpr (by omega)⟩

theorem Grown.refl (runs : List Run) : Grown runs runs :=
  fun r member => ⟨r, member, rfl, Nat.le_refl _⟩

theorem Grown.trans {mid : List Run} (first : Grown runs mid) (second : Grown mid after) : Grown runs after := by
  intro r member
  obtain ⟨q, inside, start, stop⟩ := first r member
  obtain ⟨p, final, start', stop'⟩ := second q inside
  exact ⟨p, final, start'.trans start, Nat.le_trans stop stop'⟩

theorem Ordered.addCells (ordered : Ordered runs) (ascending : cells.Pairwise fun a b => a.address ≤ b.address)
    (below : ∀ r ∈ runs, ∀ c ∈ cells, r.fields.start ≤ c.address) (h : cells.foldlM (Run.addCell L) runs = .ok after) :
    Ordered after ∧ Grown runs after ∧ ∀ c ∈ cells, ∃ r ∈ after, r.Spans c.address c.size := by
  induction cells generalizing runs with
  | nil => cases h; exact ⟨ordered, .refl _, nofun⟩
  | cons c cs ih =>
    obtain ⟨next, rest⟩ := List.pairwise_cons.mp ascending
    rw [List.foldlM_cons] at h
    obtain ⟨mid, first, h⟩ := Recovering.bind_eq_ok h
    obtain ⟨ordered', grown, ⟨r, member, spans⟩, below'⟩ :=
      ordered.addCell (fun r member => below r member c List.mem_cons_self) first
    obtain ⟨final, grown', others⟩ := ih ordered' rest
      (fun q inside d later => Nat.le_trans (below' q inside) (next d later)) h
    refine ⟨final, grown.trans grown', List.forall_mem_cons.mpr ⟨?_, others⟩⟩
    obtain ⟨q, inside, start, stop⟩ := grown' r member
    exact ⟨q, inside, start ▸ spans.1, Nat.le_trans spans.2 stop⟩

/-- The runs of sorted cells lie one behind the other, and each cell lies in one. -/
theorem ofCells_spec (ascending : cells.Pairwise fun a b => a.address ≤ b.address)
    (h : ofCells L cells = .ok runs) : Ordered runs ∧ ∀ c ∈ cells, ∃ r ∈ runs, r.Spans c.address c.size := by
  obtain ⟨ordered, -, inside⟩ := Ordered.addCells ⟨.nil, nofun⟩ ascending nofun h
  exact ⟨ordered, inside⟩

end Run

end VarRecovery
