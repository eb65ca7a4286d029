import Mathlib.Data.List.Induction
import VarRecovery.Image
import VarRecovery.Proofs.Address
import VarRecovery.Proofs.Recovering

/-!
Address spaces that are mapped range by range. The ranges that are kept lie one behind the other, so the last that
starts at an address or before it is the only one that can hold it.
-/

set_option autoImplicit false

namespace VarRecovery

/-- A range of addresses that is to be mapped. -/
structure Mapping where
  start : Nat
  len : Nat
  kind : ByteKind
deriving DecidableEq, Repr

namespace Mapping

/-- Where the range ends that is mapped. -/
def stop (r : Mapping) : Nat :=
  clipAddress (r.start + r.len)

/-- An address is one of the range. -/
def Covers (r : Mapping) (a : Nat) : Prop :=
  r.start ≤ a ∧ a < r.start + r.len

/-- An address is one of those that are mapped. -/
def Holds (r : Mapping) (a : Nat) : Prop :=
  r.start ≤ a ∧ a < r.stop

/-- One range starts before the other ends, and the other way round. -/
def Meets (r q : Mapping) : Prop :=
  r.start < q.stop ∧ q.start < r.stop

/-- Of the ranges that start at one address the last is kept. -/
def Kept (rs : List Mapping) (r : Mapping) : Prop :=
  ∃ before behind, rs = before ++ r :: behind ∧ ∀ q ∈ behind, q.start ≠ r.start

instance (r : Mapping) (a : Nat) : Decidable (r.Covers a) :=
  inferInstanceAs (Decidable (_ ∧ _))

instance (r : Mapping) (a : Nat) : Decidable (r.Holds a) :=
  inferInstanceAs (Decidable (_ ∧ _))

variable {r q : Mapping} {rs : List Mapping} {a : Nat}

theorem stop_le (r : Mapping) : r.stop ≤ maxAddress :=
  Nat.min_le_right _ _

theorem start_le_stop (inside : r.start ≤ maxAddress) : r.start ≤ r.stop :=
  Nat.le_min.mpr ⟨Nat.le_add_right _ _, inside⟩

/-- But for the last address, what is covered is mapped. -/
theorem holds_iff_covers (below : a < maxAddress) : r.Holds a ↔ r.Covers a := by
  simp only [Holds, Covers, stop, clipAddress]
  omega

/-- Ranges that take a byte meet if they have a byte in common. -/
theorem meets_iff_covers (takes : r.start < r.stop) (takes' : q.start < q.stop) :
    r.Meets q ↔ ∃ a ≤ maxAddress, r.Covers a ∧ q.Covers a := by
  simp only [Meets, Covers, stop, clipAddress] at *
  constructor
  · intro meets
    exact ⟨max r.start q.start, by omega, by omega⟩
  · rintro ⟨a, -, common⟩
    omega

theorem Kept.mem (kept : Kept rs r) : r ∈ rs := by
  obtain ⟨before, behind, rfl, -⟩ := kept
  exact List.mem_append_right _ List.mem_cons_self

theorem not_kept_nil : ¬Kept [] r :=
  fun kept => List.not_mem_nil kept.mem

theorem kept_concat : Kept (rs ++ [q]) r ↔ r = q ∨ Kept rs r ∧ q.start ≠ r.start := by
  constructor
  · rintro ⟨before, behind, same, differ⟩
    rcases List.eq_nil_or_concat behind with rfl | ⟨front, last, rfl⟩
    · exact .inl (List.append_inj_right' same rfl |> List.singleton_inj.mp).symm
    · rw [List.concat_eq_append] at same differ
      rw [← List.cons_append, ← List.append_assoc] at same
      obtain ⟨rfl, here⟩ := List.append_inj' same rfl
      obtain rfl := List.singleton_inj.mp here
      exact .inr ⟨⟨before, front, rfl, fun x member => differ x (by simp [member])⟩, differ q (by simp)⟩
  · rintro (rfl | ⟨⟨before, behind, rfl, differ⟩, last⟩)
    · exact ⟨rs, [], rfl, nofun⟩
    · refine ⟨before, behind ++ [q], by simp, fun x member => ?_⟩
      rcases List.mem_append.mp member with inside | here
      · exact differ x inside
      · exact List.mem_singleton.mp here ▸ last

end Mapping

namespace AddressSpace

open Mapping

def mapNext (s : AddressSpace) (r : Mapping) : Except Overlap AddressSpace :=
  s.map r.start r.len r.kind

/-- Maps ranges one after the other. -/
def mapAll (rs : List Mapping) : Except Overlap AddressSpace :=
  rs.foldlM mapNext .empty

/-- The entries are the ranges that are kept, and each ends before the next one starts. -/
structure Lists (s : AddressSpace) (rs : List Mapping) : Prop where
  entry : ∀ start stop kind, (start, stop, kind) ∈ s.ranges.entries ↔
    ∃ r, Kept rs r ∧ r.start = start ∧ r.stop = stop ∧ r.kind = kind
  apart : ∀ x ∈ s.ranges.entries, ∀ y ∈ s.ranges.entries, x.1 < y.1 → x.2.1 ≤ y.1
  forwards : ∀ x ∈ s.ranges.entries, x.1 ≤ x.2.1

variable {s t : AddressSpace} {rs : List Mapping} {r q : Mapping} {a : Nat}

theorem lists_empty : AddressSpace.empty.Lists [] where
  entry start stop kind := by simp [AddressSpace.empty, AddressMap.empty, not_kept_nil]
  apart := nofun
  forwards := nofun

theorem Lists.mem (lists : s.Lists rs) (kept : Kept rs r) : (r.start, r.stop, r.kind) ∈ s.ranges.entries :=
  (lists.entry _ _ _).mpr ⟨r, kept, rfl, rfl, rfl⟩

/-- Looking at the last range that starts before the end of another is enough. -/
theorem Lists.mapNext_cases (lists : s.Lists rs) (r : Mapping) :
    (s.mapNext r = .ok ⟨s.ranges.insert r.start (r.stop, r.kind)⟩ ∧ ∀ q, Kept rs q → ¬q.Meets r) ∨
    ∃ q, Kept rs q ∧ q.Meets r ∧ s.mapNext r = .error ⟨r.start, r.stop, q.start, q.stop⟩ := by
  unfold mapNext AddressSpace.map
  rw [← stop]
  dsimp only
  split
  next none_ =>
    refine .inl ⟨rfl, fun q kept meets => ?_⟩
    exact Nat.not_le_of_lt meets.1 (AddressMap.lastBelow?_eq_none.mp none_ _ (lists.mem kept))
  next start stop kind last =>
    obtain ⟨member, below, greatest⟩ := AddressMap.lastBelow?_eq_some.mp last
    obtain ⟨p, kept, rfl, rfl, rfl⟩ := (lists.entry _ _ _).mp member
    split
    next before =>
      refine .inl ⟨rfl, fun q kept' meets => ?_⟩
      have here := lists.mem kept'
      have reaches : q.stop ≤ p.stop := by
        rcases Nat.lt_or_eq_of_le (greatest _ here meets.1) with earlier | same
        · exact Nat.le_trans (lists.apart _ here _ member earlier) (lists.forwards _ member)
        · exact Nat.le_of_eq (congrArg (·.2.1) (AddressMap.eq_of_mem here member same))
      exact Nat.lt_irrefl _ (Nat.lt_of_lt_of_le meets.2 (Nat.le_trans reaches before))
    next behind => exact .inr ⟨p, kept, ⟨below, Nat.lt_of_not_le behind⟩, rfl⟩

theorem Lists.next (lists : s.Lists rs) (inside : r.start ≤ maxAddress) (h : s.mapNext r = .ok t) :
    t.Lists (rs ++ [r]) := by
  obtain ⟨done, free⟩ | ⟨q, -, -, failed⟩ := lists.mapNext_cases r
  case inr => cases failed.symm.trans h
  cases done.symm.trans h
  -- No kept range meets the new one, so every entry of the map lies on one side of it.
  have free {x : Nat × Nat × ByteKind} (member : x ∈ s.ranges.entries) : r.stop ≤ x.1 ∨ x.2.1 ≤ r.start := by
    obtain ⟨q, kept, start, stop, -⟩ := (lists.entry x.1 x.2.1 x.2.2).mp member
    have := free q kept
    simp only [Meets] at this
    omega
  refine ⟨fun start stop kind => ?_, fun x one y other before => ?_, fun x member => ?_⟩
  · rw [AddressMap.mem_entries_insert, lists.entry]
    simp only [kept_concat, or_and_right, exists_or, exists_eq_left, Prod.mk.injEq]
    refine or_congr ⟨fun ⟨a, b, c⟩ => ⟨a.symm, b.symm, c.symm⟩, fun ⟨a, b, c⟩ => ⟨a.symm, b.symm, c.symm⟩⟩ ?_
    constructor
    · rintro ⟨⟨q, kept, rfl, same⟩, differ⟩
      exact ⟨q, ⟨kept, differ.symm⟩, rfl, same⟩
    · rintro ⟨q, ⟨kept, differ⟩, rfl, same⟩
      exact ⟨⟨q, kept, rfl, same⟩, differ.symm⟩
  · have forwards := r.start_le_stop inside
    rcases AddressMap.mem_entries_insert.mp one with rfl | ⟨old, -⟩ <;>
      rcases AddressMap.mem_entries_insert.mp other with rfl | ⟨old', -⟩
    · exact absurd before (Nat.lt_irrefl _)
    · have := free old'
      have := lists.forwards y old'
      dsimp only at *
      omega
    · have := free old
      have := lists.forwards x old
      dsimp only at *
      omega
    · exact lists.apart x old y old' before
  · rcases AddressMap.mem_entries_insert.mp member with rfl | ⟨old, -⟩
    · exact r.start_le_stop inside
    · exact lists.forwards x old

theorem mapAll_lists (inside : ∀ r ∈ rs, r.start ≤ maxAddress) (h : mapAll rs = .ok s) : s.Lists rs := by
  have general (done more : List Mapping) (inside : ∀ r ∈ more, r.start ≤ maxAddress) (a : AddressSpace)
      (lists : a.Lists done) (h : more.foldlM mapNext a = .ok s) : s.Lists (done ++ more) := by
    induction more generalizing done a with
    | nil =>
      cases h
      simpa using lists
    | cons r more ih =>
      obtain ⟨here, rest⟩ := List.forall_mem_cons.mp inside
      rw [List.foldlM_cons] at h
      obtain ⟨b, first, h⟩ := Recovering.bind_eq_ok h
      simpa using ih (done ++ [r]) rest b (lists.next here first) h
  simpa using general [] rs inside .empty lists_empty h

theorem Lists.kindAt (lists : s.Lists rs) (kept : Kept rs r) (holds : r.Holds a) : s.kindAt a = r.kind := by
  have last : s.ranges.lastBelow? (a + 1) = some (r.start, r.stop, r.kind) := by
    refine AddressMap.lastBelow?_eq_some.mpr ⟨lists.mem kept, Nat.lt_succ_of_le holds.1, fun x member below => ?_⟩
    -- A range that starts behind this one would start behind its end too.
    refine Nat.le_of_not_lt fun later => ?_
    have := lists.apart _ (lists.mem kept) x member later
    have := holds.2
    dsimp only at *
    omega
  unfold AddressSpace.kindAt
  rw [last]
  exact if_pos holds.2

theorem Lists.kindAt_unknown (lists : s.Lists rs) (outside : ∀ r, Kept rs r → ¬r.Holds a) : s.kindAt a = .unknown := by
  unfold AddressSpace.kindAt
  split
  next start stop kind last =>
    obtain ⟨member, below, -⟩ := AddressMap.lastBelow?_eq_some.mp last
    obtain ⟨r, kept, rfl, rfl, rfl⟩ := (lists.entry _ _ _).mp member
    exact if_neg fun before => outside r kept ⟨Nat.le_of_lt_succ below, before⟩
  next => rfl

theorem Lists.mapNext_fails (lists : s.Lists rs) (r : Mapping) :
    (∃ o, s.mapNext r = .error o) ↔ ∃ q, Kept rs q ∧ q.Meets r := by
  obtain ⟨done, free⟩ | ⟨q, kept, meets, failed⟩ := lists.mapNext_cases r
  · rw [done]
    exact ⟨nofun, fun ⟨q, kept, meets⟩ => absurd meets (free q kept)⟩
  · exact ⟨fun _ => ⟨q, kept, meets⟩, fun _ => ⟨_, failed⟩⟩

/-- If each range takes a byte, none takes the place of another. -/
theorem kept_of_mapAll (inside : ∀ r ∈ rs, r.start ≤ maxAddress) (take : ∀ r ∈ rs, r.start < r.stop)
    (h : mapAll rs = .ok s) (member : r ∈ rs) : Kept rs r := by
  induction rs using List.reverseRec generalizing s with
  | nil => cases member
  | append_singleton rs q ih =>
    rw [mapAll, List.foldlM_append] at h
    obtain ⟨t, before, h⟩ := Recovering.bind_eq_ok h
    rw [List.foldlM_cons] at h
    obtain ⟨_, last, -⟩ := Recovering.bind_eq_ok h
    rw [List.forall_mem_append] at inside take
    rw [kept_concat]
    rcases List.mem_append.mp member with old | new
    · have kept := ih inside.1 take.1 before old
      refine .inr ⟨kept, fun same => ?_⟩
      -- The last range would meet the one that starts where it does.
      have meets : r.Meets q := ⟨by rw [← same]; exact take.2 q (by simp), by rw [same]; exact take.1 r old⟩
      obtain ⟨_, failed⟩ := ((mapAll_lists inside.1 before).mapNext_fails q).mpr ⟨r, kept, meets⟩
      cases failed.symm.trans last
    · exact .inl (List.mem_singleton.mp new)

/-- The kind at an address is that of the range that is kept there, and a range is refused exactly if it meets one
that is kept. If all ranges take a byte, all are kept: up to the last address but one, the kind is that of the range
that covers it, and a range is refused exactly if it has a byte in common with another. The last address has no kind. -/
theorem mapAll_classifies (inside : ∀ r ∈ rs, r.start ≤ maxAddress) (run : mapAll rs = .ok s) :
    (∀ a, (∀ r, Kept rs r → r.Holds a → s.kindAt a = r.kind) ∧
      ((∀ r, Kept rs r → ¬r.Holds a) → s.kindAt a = .unknown)) ∧
    (∀ r : Mapping, (∃ o, s.map r.start r.len r.kind = .error o) ↔ ∃ q, Kept rs q ∧ q.Meets r) ∧
    s.kindAt maxAddress = .unknown ∧
    ((∀ r ∈ rs, r.start < r.stop) →
      (∀ a < maxAddress, (∀ r ∈ rs, r.Covers a → s.kindAt a = r.kind) ∧
        ((∀ r ∈ rs, ¬r.Covers a) → s.kindAt a = .unknown)) ∧
      ∀ r : Mapping, r.start < r.stop → ((∃ o, s.map r.start r.len r.kind = .error o) ↔
        ∃ q ∈ rs, ∃ a ≤ maxAddress, q.Covers a ∧ r.Covers a)) := by
  have lists := mapAll_lists inside run
  refine ⟨fun a => ⟨fun r => lists.kindAt, lists.kindAt_unknown⟩, lists.mapNext_fails, ?_, fun take => ?_⟩
  · exact lists.kindAt_unknown fun r _ holds => Nat.not_le_of_lt holds.2 r.stop_le
  · have kept (r : Mapping) : Kept rs r ↔ r ∈ rs := ⟨Kept.mem, kept_of_mapAll inside take run⟩
    refine ⟨fun a below => ⟨fun r member covers => ?_, fun outside => ?_⟩, fun r takes => ?_⟩
    · exact lists.kindAt ((kept r).mpr member) ((holds_iff_covers below).mpr covers)
    · exact lists.kindAt_unknown fun r inside holds =>
        outside r ((kept r).mp inside) ((holds_iff_covers below).mp holds)
    · rw [show s.map r.start r.len r.kind = s.mapNext r from rfl, lists.mapNext_fails]
      refine exists_congr fun q => ?_
      rw [kept]
      exact and_congr_right fun member => meets_iff_covers (take q member) takes

/-- Two ranges of which one starts where the other ends. -/
theorem adjacentRanges_classified : ∃ s, mapAll [⟨4096, 256, .code⟩, ⟨4352, 16, .global⟩] = .ok s ∧
    s.kindAt 4351 = .code ∧ s.kindAt 4352 = .global ∧ s.kindAt 4368 = .unknown ∧
    ∃ o, s.map 4367 1 .stack = .error o := by
  have inside : ∀ r ∈ [⟨4096, 256, .code⟩, ⟨4352, 16, .global⟩], Mapping.start r ≤ maxAddress := by decide
  obtain ⟨s, run⟩ : ∃ s, mapAll [⟨4096, 256, .code⟩, ⟨4352, 16, .global⟩] = .ok s := ⟨_, rfl⟩
  obtain ⟨-, -, -, all⟩ := mapAll_classifies inside run
  obtain ⟨kinds, refused⟩ := all (by decide)
  refine ⟨s, run, ?_, ?_, ?_, ?_⟩
  · exact (kinds 4351 (by decide)).1 ⟨4096, 256, .code⟩ (by decide) (by decide)
  · exact (kinds 4352 (by decide)).1 ⟨4352, 16, .global⟩ (by decide) (by decide)
  · exact (kinds 4368 (by decide)).2 (by decide)
  · exact (refused ⟨4367, 1, .stack⟩ (by decide)).mpr ⟨⟨4352, 16, .global⟩, by decide, 4367, by decide, by decide⟩

/-- An empty range takes the place of the one that starts at its address, and what ends the address space is mapped
without its last address. -/
theorem emptyRange_unmaps : ∃ s, mapAll [⟨4096, 256, .code⟩, ⟨4096, 0, .global⟩, ⟨0xFFFFFFFFFFFFFFF0, 16, .stack⟩] = .ok s ∧
    (⟨4096, 256, .code⟩ : Mapping).Covers 4096 ∧ s.kindAt 4096 = .unknown ∧
    (⟨0xFFFFFFFFFFFFFFF0, 16, .stack⟩ : Mapping).Covers maxAddress ∧ s.kindAt maxAddress = .unknown :=
  ⟨_, rfl, by decide, by decide, by decide, by decide⟩

end AddressSpace

end VarRecovery
