import VarRecovery.Proofs.Calling.Returns
import VarRecovery.Proofs.TypeLayout

/-!
The pieces that registers return a struct in. They are its fields in their order, each by itself or with the other words
of its chunk. Words are returned together exactly if their chunk holds nothing else.
-/

set_option autoImplicit false

namespace VarRecovery

namespace FieldSpan

variable {s t : FieldSpan} {group spans more : List FieldSpan} {pieces others : List Ty}
  {n c : Nat}

def stop (s : FieldSpan) : Nat :=
  s.offset + s.size

def EndsBefore (s t : FieldSpan) : Prop :=
  s.stop ≤ t.offset

/-- Whether the last byte of a field lies in another chunk than the first. -/
def Straddles (s : FieldSpan) : Prop :=
  s.chunk ≠ (s.stop - 1) / chunkBytes

instance : Decidable s.Straddles :=
  inferInstanceAs (Decidable (_ ≠ _))

theorem fitsChunk_iff : s.fitsChunk = true ↔ s.size ≠ 0 ∧ s.chunk = Word.wrap (s.stop - 1) / chunkBytes := by
  simp [fitsChunk, stop]

/-- Words of one chunk, and the least integer with as many bytes as there are from the start of the first to the end
of the last. -/
structure Together (group : List FieldSpan) (w : IntWidth) : Prop where
  several : 1 < group.length
  words : ∀ s ∈ group, s.isWord = true
  inChunk : ∃ c, ∀ s ∈ group, s.size ≠ 0 ∧ chunkBytes * c ≤ s.offset ∧ s.stop ≤ chunkBytes * (c + 1)
  ordered : group.Pairwise EndsBefore
  least : ∀ first last, group.head? = some first → group.getLast? = some last →
    IsLeast {n | (∃ k, n = 2 ^ k) ∧ last.stop - first.offset ≤ n} w.bytes
  small : w.bytes ≤ chunkBytes

/-- The fields cut into groups from the first to the last, and a piece for each group. -/
inductive Cut : List FieldSpan → List Ty → Prop
  | nil : Cut [] []
  | field {spans : List FieldSpan} {pieces : List Ty} (s : FieldSpan) (rest : Cut spans pieces) :
    Cut (s :: spans) (s.ty :: pieces)
  | words {group spans : List FieldSpan} {pieces : List Ty} {w : IntWidth} (together : Together group w)
    (rest : Cut spans pieces) : Cut (group ++ spans) (.int w :: pieces)

theorem Cut.append (front : Cut spans pieces) (back : Cut more others) : Cut (spans ++ more) (pieces ++ others) := by
  induction front with
  | nil => exact back
  | field s rest ih => exact .field s ih
  | words together rest ih =>
    rw [List.append_assoc]
    exact .words together ih

theorem Cut.length_le (cut : Cut spans pieces) : pieces.length ≤ spans.length := by
  induction cut with
  | nil => exact Nat.le_refl 0
  | field s rest ih => exact Nat.succ_le_succ ih
  | words together rest ih =>
    have several := together.several
    rw [List.length_append, List.length_cons]
    omega

theorem cut_types (spans : List FieldSpan) : Cut spans (spans.map ty) := by
  induction spans with
  | nil => exact .nil
  | cons s spans ih => exact .field s ih

theorem cut_flatten {groups : List (List FieldSpan)} {f : List FieldSpan → List Ty}
    (each : ∀ group ∈ groups, Cut group (f group)) : Cut groups.flatten (groups.flatMap f) := by
  induction groups with
  | nil => exact .nil
  | cons group groups ih =>
    obtain ⟨here, others⟩ := List.forall_mem_cons.mp each
    exact here.append (ih others)

/-! ### Several words as one integer -/

theorem isLeast_power {j : Nat} (above : 2 ^ j < n) (reached : n ≤ 2 ^ (j + 1)) :
    IsLeast {m | (∃ k, m = 2 ^ k) ∧ n ≤ m} (2 ^ (j + 1)) := by
  refine ⟨⟨⟨j + 1, rfl⟩, reached⟩, ?_⟩
  rintro _ ⟨⟨k, rfl⟩, le⟩
  have higher : j < k := (Nat.pow_lt_pow_iff_right (by decide)).mp (Nat.lt_of_lt_of_le above le)
  exact Nat.pow_le_pow_right (by decide) higher

/-- The integers of two, four and eight bytes are all that a chunk takes. -/
theorem exists_leastInt (low : 2 ≤ n) (high : n ≤ chunkBytes) :
    ∃ w : IntWidth, Ty.intOfSize? n.nextPowerOfTwo = some (.int w) ∧
      IsLeast {m | (∃ k, m = 2 ^ k) ∧ n ≤ m} w.bytes ∧ w.bytes ≤ chunkBytes := by
  have few : n = 2 ∨ (n = 3 ∨ n = 4) ∨ n = 5 ∨ n = 6 ∨ n = 7 ∨ n = 8 := by
    unfold chunkBytes at high
    omega
  rcases few with rfl | four | eight
  · exact ⟨.i16, by decide +kernel, isLeast_power (j := 0) (by decide) (by decide), by decide⟩
  · refine ⟨.i32, ?_, isLeast_power (j := 1) (by omega) (by omega), by decide⟩
    rcases four with rfl | rfl <;> decide +kernel
  · refine ⟨.i64, ?_, isLeast_power (j := 2) (by omega) (by omega), by decide⟩
    rcases eight with rfl | rfl | rfl | rfl <;> decide +kernel

theorem merge_words (several : 1 < group.length) (words : ∀ s ∈ group, s.isWord = true)
    (inChunk : ∀ s ∈ group, s.size ≠ 0 ∧ chunkBytes * c ≤ s.offset ∧ s.stop ≤ chunkBytes * (c + 1))
    (ordered : group.Pairwise EndsBefore) : ∃ w, merge group = [.int w] ∧ Together group w := by
  obtain ⟨first, rest, rfl⟩ := List.exists_cons_of_length_pos (Nat.zero_lt_of_lt several)
  obtain ⟨last, final⟩ : ∃ last, rest.getLast? = some last := by
    cases rest with
    | nil => simp at several
    | cons t rest => exact ⟨_, List.getLast?_cons⟩
  have behind := (List.pairwise_cons.mp ordered).1 last (List.mem_of_getLast? final)
  obtain ⟨some_, from_, -⟩ := inChunk first List.mem_cons_self
  obtain ⟨some', -, upTo⟩ := inChunk last (List.mem_cons_of_mem _ (List.mem_of_getLast? final))
  -- Two fields of a byte at least, one behind the other in eight bytes.
  have bounds : 2 ≤ last.stop - first.offset ∧ last.stop - first.offset ≤ chunkBytes := by
    unfold EndsBefore chunkBytes stop at *
    omega
  obtain ⟨w, found, least, small⟩ := exists_leastInt bounds.1 bounds.2
  have covers : extent (first :: rest) = last.stop - first.offset := by
    simp [extent, final, stop]
  have all : (first :: rest).all isWord = true := List.all_eq_true.mpr words
  refine ⟨w, ?_, several, words, ⟨c, inChunk⟩, ordered, ?_, small⟩
  · rw [merge, if_pos ⟨several, all⟩, covers, found]
  · intro one other head end_
    cases Option.some.inj head
    rw [List.getLast?_cons, final] at end_
    cases Option.some.inj end_
    exact least

theorem merge_types (mixed : ¬(1 < group.length ∧ ∀ s ∈ group, s.isWord = true)) : merge group = group.map ty := by
  rw [merge, if_neg]
  rwa [List.all_eq_true]

/-! ### The fields of one chunk -/

/-- Words that follow each other in a chunk do not overlap. -/
def Follows (s t : FieldSpan) : Prop :=
  s.isWord = true → t.isWord = true → s.fitsChunk = true → s.chunk = t.chunk → EndsBefore s t

instance : Trans EndsBefore EndsBefore EndsBefore where
  trans := by
    intro s t u one two
    unfold EndsBefore stop at *
    omega

/-- What the layout of a struct gives for its fields. -/
structure Ready (spans : List FieldSpan) : Prop where
  chain : spans.IsChain Follows
  inWord : ∀ s ∈ spans, s.offset < Word.count
  inChunk : ∀ s ∈ spans, s.isWord = true → s.fitsChunk = true →
    s.size ≠ 0 ∧ chunkBytes * s.chunk ≤ s.offset ∧ s.stop ≤ chunkBytes * (s.chunk + 1)

theorem Ready.within (ready : Ready spans) (part : group <:+: spans) : Ready group := by
  have chain := List.IsChain.infix ready.chain part
  exact ⟨chain, fun s member => ready.inWord s (part.subset member),
    fun s member => ready.inChunk s (part.subset member)⟩

theorem Ready.merge_words (ready : Ready group) (fits : ∀ s ∈ group, s.fitsChunk = true) (one : ∀ s ∈ group, s.chunk = c)
    (several : 1 < group.length) (words : ∀ s ∈ group, s.isWord = true) :
    ∃ w, merge group = [.int w] ∧ Together group w := by
  have inChunk (s : FieldSpan) (member : s ∈ group) :=
    one s member ▸ ready.inChunk s member (words s member) (fits s member)
  have steps : group.IsChain EndsBefore := by
    refine ready.chain.imp_of_mem_imp fun s t first second follows => ?_
    exact follows (words s first) (words t second) (fits s first) ((one s first).trans (one t second).symm)
  exact FieldSpan.merge_words several words inChunk steps.pairwise

theorem Ready.merge_cut (ready : Ready group) (fits : ∀ s ∈ group, s.fitsChunk = true)
    (one : ∀ s ∈ group, s.chunk = c) : Cut group (merge group) := by
  by_cases together : 1 < group.length ∧ ∀ s ∈ group, s.isWord = true
  · obtain ⟨w, merged, cover⟩ := ready.merge_words fits one together.1 together.2
    rw [merged, ← List.append_nil group]
    exact .words cover .nil
  · rw [merge_types together]
    exact cut_types group

/-- The pieces for fields of which none crosses from chunk to chunk. -/
def piecesOf (spans : List FieldSpan) : List Ty :=
  (spans.splitBy fun a b => a.chunk = b.chunk).flatMap merge

theorem chunk_of_chain (chain : group.IsChain fun s t => s.chunk = t.chunk) : ∃ c, ∀ s ∈ group, s.chunk = c := by
  induction group with
  | nil => exact ⟨0, List.forall_mem_nil _⟩
  | cons first rest ih =>
    obtain ⟨next, others⟩ := List.isChain_cons.mp chain
    obtain ⟨c, same⟩ := ih others
    refine ⟨first.chunk, List.forall_mem_cons.mpr ⟨rfl, fun s member => ?_⟩⟩
    obtain ⟨t, rest, rfl⟩ := List.exists_cons_of_ne_nil (List.ne_nil_of_mem member)
    rw [next t rfl, same s member, same t List.mem_cons_self]

theorem Ready.cut (ready : Ready spans) (fits : ∀ s ∈ spans, s.fitsChunk = true) : Cut spans (piecesOf spans) := by
  have each : ∀ group ∈ spans.splitBy (fun a b => a.chunk = b.chunk), Cut group (merge group) := by
    intro group member
    have part : group <:+: spans := by
      conv => rhs; rw [← List.flatten_splitBy (fun a b => a.chunk = b.chunk) spans]
      exact List.infix_of_mem_flatten member
    obtain ⟨c, one⟩ := chunk_of_chain (by simpa using List.isChain_of_mem_splitBy member)
    exact (ready.within part).merge_cut (fun s inside => fits s (part.subset inside)) one
  simpa [piecesOf, List.flatten_splitBy] using cut_flatten each

/-! ### The chunk of two fields -/

/-- All fields around a place that lie in one chunk: those before and behind them lie in others. -/
structure IsRun (spans : List FieldSpan) (c : Nat) (earlier run later : List FieldSpan) : Prop where
  parts : spans = earlier ++ run ++ later
  some_ : run ≠ []
  inChunk : ∀ s ∈ run, s.chunk = c
  before : ∀ s ∈ earlier.getLast?, s.chunk ≠ c
  behind : ∀ s ∈ later.head?, s.chunk ≠ c

theorem piecesOf_append (apart : ∀ s ∈ spans.getLast?, ∀ t ∈ more.head?, s.chunk ≠ t.chunk) :
    piecesOf (spans ++ more) = piecesOf spans ++ piecesOf more := by
  rw [piecesOf, List.splitBy_append, List.flatMap_append, piecesOf, piecesOf]
  intro s last t first
  exact decide_eq_false (apart s last t first)

theorem piecesOf_chunk (some_ : group ≠ []) (one : ∀ s ∈ group, s.chunk = c) : piecesOf group = merge group := by
  rw [piecesOf, List.splitBy_of_isChain some_, List.flatMap_singleton]
  refine List.Pairwise.isChain (List.pairwise_iff_forall_sublist.mpr fun {s t} part => ?_)
  have first := one s (part.subset (by simp))
  have second := one t (part.subset (by simp))
  simp [first, second]

theorem IsRun.pieces_eq {earlier run later : List FieldSpan} (isRun : IsRun spans c earlier run later) :
    piecesOf spans = piecesOf earlier ++ merge run ++ piecesOf later := by
  have last (s : FieldSpan) (found : s ∈ (earlier ++ run).getLast?) : s.chunk = c := by
    rw [List.getLast?_append_of_ne_nil _ isRun.some_] at found
    exact isRun.inChunk s (List.mem_of_getLast? found)
  rw [isRun.parts, piecesOf_append, piecesOf_append, piecesOf_chunk isRun.some_ isRun.inChunk]
  · intro s before t first same
    exact isRun.before s before (same.trans (isRun.inChunk t (List.mem_of_head? first)))
  · intro s final t first same
    exact isRun.behind t first (same.symm.trans (last s final))

/-- What becomes of the fields of one chunk, between the pieces for those before and behind them: one integer if they
are several words, and what they are if they are not all words. -/
def Becomes (earlier run later : List FieldSpan) (pieces : List Ty) : Prop :=
  ∃ front middle back, pieces = front ++ middle ++ back ∧ Cut earlier front ∧ Cut later back ∧
    (1 < run.length → (∀ s ∈ run, s.isWord = true) → ∃ w, middle = [.int w] ∧ Together run w) ∧
    ((∃ s ∈ run, s.isWord = false) → middle = run.map ty)

theorem Ready.becomes {earlier run later : List FieldSpan} (ready : Ready spans)
    (fits : ∀ s ∈ spans, s.fitsChunk = true) (isRun : IsRun spans c earlier run later) :
    Becomes earlier run later (piecesOf spans) := by
  have parts := isRun.parts
  have front : earlier <:+: spans := ⟨[], run ++ later, by simp [parts]⟩
  have middle : run <:+: spans := ⟨earlier, later, parts.symm⟩
  have back : later <:+: spans := ⟨earlier ++ run, [], by simp [parts]⟩
  have fitting {part : List FieldSpan} (inside : part <:+: spans) (s : FieldSpan) (member : s ∈ part) :=
    fits s (inside.subset member)
  refine ⟨piecesOf earlier, merge run, piecesOf later, isRun.pieces_eq, (ready.within front).cut (fitting front),
    (ready.within back).cut (fitting back), ?_, ?_⟩
  · exact (ready.within middle).merge_words (fitting middle) isRun.inChunk
  · rintro ⟨s, member, other⟩
    exact merge_types fun all => absurd (all.2 s member) (by simp [other])

theorem exists_isRun (before : List FieldSpan) (s t : FieldSpan) (after : List FieldSpan) (same : s.chunk = t.chunk) :
    ∃ earlier g h later, IsRun (before ++ s :: t :: after) s.chunk earlier (g ++ s :: t :: h) later ∧
      before = earlier ++ g ∧ after = h ++ later := by
  let here (u : FieldSpan) : Bool := u.chunk = s.chunk
  have front : before.rdropWhile here ++ before.rtakeWhile here = before := List.rdropWhile_append_rtakeWhile ..
  have back : after.takeWhile here ++ after.dropWhile here = after := List.takeWhile_append_dropWhile
  refine ⟨before.rdropWhile here, before.rtakeWhile here, after.takeWhile here, after.dropWhile here,
    ⟨?_, by simp, ?_, ?_, ?_⟩, front.symm, back.symm⟩
  · simp only [List.append_assoc, List.cons_append, back]
    rw [← List.append_assoc, front]
  · intro u member
    simp only [List.mem_append, List.mem_cons] at member
    rcases member with left | rfl | rfl | right
    · exact of_decide_eq_true (show here u = true from List.mem_rtakeWhile_imp left)
    · rfl
    · exact same.symm
    · exact of_decide_eq_true (show here u = true from List.mem_takeWhile_imp right)
  · intro u last
    obtain ⟨some_, rfl⟩ := List.mem_getLast?_eq_getLast last
    exact fun equal => List.rdropWhile_last_not here before some_ (decide_eq_true equal)
  · intro u first
    have stops := List.head?_dropWhile_not here after
    rw [Option.mem_def.mp first] at stops
    exact of_decide_eq_false stops

end FieldSpan

namespace DataLayout

open FieldSpan (Cut Together IsRun piecesOf)

variable {L : DataLayout} {a : Architecture} {name : String} {ty : Ty} {fields : List Ty} {packed : Bool}
  {start stop : Nat} {offsets : List Nat} {spans : List FieldSpan}

/-! ### Where the fields of a struct are -/

/-- The fields of a struct in their order, where its layout has them. -/
structure Spanned (L : DataLayout) (name : String) (fields : List Ty) (packed : Bool) (spans : List FieldSpan) : Prop where
  types : spans.map FieldSpan.ty = fields
  placed : ∀ i s, spans[i]? = some s →
    L.fieldOffset? (.struct name fields packed) i = some s.offset ∧ L.size? s.ty = some s.size

def spanAt? (L : DataLayout) (field : Ty × Nat) : Option FieldSpan := do
  return ⟨field.1, field.2, ← L.size? field.1⟩

theorem fieldSpans?_eq :
    L.fieldSpans? fields packed = (L.placeFields packed 0 fields).bind fun placed =>
      (fields.zip placed.1).mapM L.spanAt? :=
  rfl

/-- A word takes the same bytes in a struct as alone. -/
theorem word_regular (a : Architecture) (word : (ty.isIntegral || ty.isPtr) = true) : ∃ size align,
    (ofArchitecture a).size? ty = some size ∧ (ofArchitecture a).align? ty = some align ∧ size ≤ 16 ∧
      (0 < align ∧ align ≤ 8) ∧ Word.roundUp size align = size := by
  cases ty with
  | int width => exact ⟨_, _, rfl, rfl, by cases a <;> cases width <;> decide⟩
  | ptr pointee => exact ⟨_, _, rfl, rfl, by cases a <;> decide⟩
  | _ => cases word

theorem inChunk_of_fits {s : FieldSpan} (word : s.isWord = true) (sized : (ofArchitecture a).size? s.ty = some s.size)
    (fits : s.fitsChunk = true) :
    s.size ≠ 0 ∧ FieldSpan.chunkBytes * s.chunk ≤ s.offset ∧ s.stop ≤ FieldSpan.chunkBytes * (s.chunk + 1) := by
  obtain ⟨size, align, same, -, small, -⟩ := word_regular a word
  cases Option.some.inj (sized.symm.trans same)
  rw [FieldSpan.fitsChunk_iff] at fits
  unfold FieldSpan.chunk FieldSpan.stop FieldSpan.chunkBytes Word.wrap Word.count at *
  omega

/-- Behind a word of a chunk the next word of it begins where the first one ends, or later. -/
theorem follows_of_next {s t : FieldSpan} {offset align : Nat} (sized : (ofArchitecture a).size? s.ty = some s.size)
    (aligned : (ofArchitecture a).align? s.ty = some align)
    (next : offset = Word.wrap (s.offset + Word.roundUp s.size align))
    (placed : ∃ own, (ofArchitecture a).align? t.ty = some own ∧
      t.offset = if packed then offset else Word.roundUp offset own) : FieldSpan.Follows s t := by
  intro word word' fits same
  obtain ⟨size, align', sized', aligned', -, -, whole⟩ := word_regular a word
  cases Option.some.inj (sized.symm.trans sized')
  cases Option.some.inj (aligned.symm.trans aligned')
  obtain ⟨-, own, -, other, -, ⟨positive, least⟩, -⟩ := word_regular a word'
  obtain ⟨own', other', placed⟩ := placed
  cases Option.some.inj (other.symm.trans other')
  obtain ⟨some_, from_, upTo⟩ := inChunk_of_fits word sized fits
  rw [whole] at next
  obtain ⟨rounded, low, high⟩ : ∃ rounded, Word.roundUp offset own = Word.wrap rounded ∧ offset ≤ rounded ∧
      rounded < offset + own := by
    have ceil := Word.le_ceil positive offset
    have floor := Nat.div_mul_le_self (offset + own - 1) own
    exact ⟨Word.ceil offset own, rfl, ceil, by unfold Word.ceil; omega⟩
  unfold FieldSpan.EndsBefore
  unfold FieldSpan.chunk FieldSpan.stop FieldSpan.chunkBytes Word.wrap Word.count at *
  -- Behind the last word of memory the next offset is 0, in another chunk than the one before it.
  split at placed <;> omega

theorem exists_spans (word : start < Word.count)
    (placed : (ofArchitecture a).placeFields packed start fields = some (offsets, stop)) :
    ∃ spans, (fields.zip offsets).mapM (ofArchitecture a).spanAt? = some spans ∧
      spans.map FieldSpan.ty = fields ∧ spans.map FieldSpan.offset = offsets ∧
      (∀ s ∈ spans, (ofArchitecture a).size? s.ty = some s.size ∧ s.offset < Word.count) ∧
      spans.IsChain FieldSpan.Follows ∧ ∀ s ∈ spans.head?, ∃ own, (ofArchitecture a).align? s.ty = some own ∧
        s.offset = if packed then start else Word.roundUp start own := by
  induction fields generalizing start offsets with
  | nil =>
    simp only [placeFields, Option.some.injEq, Prod.mk.injEq] at placed
    obtain ⟨rfl, -⟩ := placed
    exact ⟨[], rfl, rfl, rfl, List.forall_mem_nil _, .nil, by simp⟩
  | cons ty tys ih =>
    simp only [placeFields, bind, Option.bind_eq_some_iff, pure, Option.some.injEq, Prod.mk.injEq] at placed
    obtain ⟨align, aligned, size, sized, ⟨rest, last⟩, behind, rfl, rfl⟩ := placed
    obtain ⟨spans, found, types, places, sizes, chain, next⟩ := ih (Word.wrap_lt _) behind
    let s : FieldSpan := ⟨ty, if packed then start else Word.roundUp start align, size⟩
    have inWord : s.offset < Word.count := by
      cases packed with
      | true => exact word
      | false => exact Word.roundUp_lt start align
    refine ⟨s :: spans, ?_, by simp [s, types], by simp [s, places], List.forall_mem_cons.mpr ⟨⟨sized, inWord⟩, sizes⟩,
      ?_, ?_⟩
    · simp [spanAt?, sized, found, s]
    · refine List.isChain_cons.mpr ⟨fun t first => ?_, chain⟩
      exact follows_of_next sized aligned rfl (next t first)
    · intro t first
      cases Option.some.inj first
      exact ⟨align, aligned, rfl⟩

/-- A struct with a layout has spans for its fields, and with them pieces. -/
theorem spanned_of_sized (sized : ((ofArchitecture a).size? (.struct name fields packed)).isSome) :
    ∃ spans, (ofArchitecture a).fieldSpans? fields packed = some spans ∧
      (ofArchitecture a).Spanned name fields packed spans ∧ FieldSpan.Ready spans := by
  obtain ⟨⟨offsets, stop⟩, placed⟩ : ∃ placed, (ofArchitecture a).placeFields packed 0 fields = some placed := by
    rw [← Option.isSome_iff_exists]
    cases placed : (ofArchitecture a).placeFields packed 0 fields with
    | some => rfl
    | none => simp [size?, placed] at sized
  obtain ⟨spans, found, types, places, sizes, chain, -⟩ := exists_spans (by decide) placed
  refine ⟨spans, by rw [fieldSpans?_eq, placed, Option.bind_some, found], ⟨types, fun i s here => ⟨?_, ?_⟩⟩, chain,
    fun s member => (sizes s member).2, fun s member word fits => inChunk_of_fits word (sizes s member).1 fits⟩
  · simp [fieldOffset?, fieldOffsets?, placed, ← places, here]
  · exact (sizes s (List.mem_of_getElem? here)).1

theorem mergeFields?_eq (found : L.fieldSpans? fields packed = some spans) :
    L.mergeFields? fields packed =
      some (if ∀ s ∈ spans, s.fitsChunk = true then piecesOf spans else fields) := by
  rw [mergeFields?, found]
  simp only [bind, Option.bind_some, List.all_eq_true]
  split <;> rfl

/-- In a struct that fits into memory no field ends behind it. -/
theorem Spanned.inWord (spanned : (ofArchitecture a).Spanned name fields packed spans)
    (place : (Ty.struct name fields packed).HasPlace) (fits : (ofArchitecture a).Fits (.struct name fields packed)) :
    ∀ s ∈ spans, s.stop < Word.count := by
  intro s member
  obtain ⟨stays, inner⟩ := fits_iff.mp fits
  have regular (field : Ty) (inside : field ∈ fields) : ∃ size align, (ofArchitecture a).Regular field size align :=
    exists_regular a field (Ty.hasPlace_struct.mp place field inside) (inner field inside)
  obtain ⟨size, align, whole, rounded, offsets, stop, placed, laid, le, -⟩ := regular_struct regular stays
  obtain ⟨i, here⟩ := List.getElem?_of_mem member
  obtain ⟨offset, sized⟩ := spanned.placed i s here
  have field : fields[i]? = some s.ty := by
    rw [← spanned.types, List.getElem?_map, here]
    rfl
  obtain ⟨own, other, own_⟩ := regular s.ty (List.mem_of_getElem? field)
  cases Option.some.inj (sized.symm.trans own_.sized)
  have found : offsets[i]? = some s.offset := by
    simpa [fieldOffset?, fieldOffsets?, placed] using offset
  have upTo := laid.le_stop field own_.alloc found
  have padded := Word.le_ceil own_.pos s.size
  have inWord := whole.inWord
  unfold FieldSpan.stop
  omega

theorem fitsChunk_of_within {s : FieldSpan} (inWord : s.offset < Word.count) (within : s.size ≠ 0 ∧ ¬s.Straddles) :
    s.fitsChunk = true := by
  rw [FieldSpan.fitsChunk_iff]
  unfold FieldSpan.Straddles FieldSpan.chunk FieldSpan.stop FieldSpan.chunkBytes Word.wrap Word.count at *
  omega

theorem not_fitsChunk {s : FieldSpan} (inWord : s.stop < Word.count) (beyond : s.size = 0 ∨ s.Straddles) :
    ¬s.fitsChunk = true := by
  have whole : Word.wrap (s.stop - 1) = s.stop - 1 := Word.wrap_of_lt (by omega)
  rw [FieldSpan.fitsChunk_iff, whole]
  rintro ⟨some_, same⟩
  rcases beyond with empty | straddles
  · exact some_ empty
  · exact straddles same

end DataLayout

namespace RegisterSlot

variable {slots : List RegisterSlot} {L : DataLayout} {taken ks : List Nat} {tys : List Ty} {values : List ValueDecl}

/-- Each value has a register of its own. -/
theorem Fills.types (fills : Fills slots L taken tys ks values) : values.map ValueDecl.ty = tys := by
  induction fills with
  | nil => rfl
  | cons _ _ _ _ _ _ ih => rw [List.map_cons, ih]; rfl

end RegisterSlot

namespace Convention

open DataLayout (ofArchitecture)
open FieldSpan (IsRun)

variable {c : Convention} {a : Architecture} {name : String} {fields pieces : List Ty} {packed : Bool} {s : Signature}
  {values : List ValueDecl}

theorem returned_types (coalesces : c.coalesceStructFields = true) (direct : s.structRet = none)
    (struct : s.ret = .struct name fields packed) (merged : (ofArchitecture a).mergeFields? fields packed = some pieces)
    (placed : c.placeReturn (ofArchitecture a) s = .ok (.registers values)) : values.map ValueDecl.ty = pieces := by
  have split : c.structPieces (ofArchitecture a) fields packed = .ok pieces := by
    simp [structPieces, coalesces, merged]
  rw [placeReturn_struct direct struct, split] at placed
  obtain ⟨others, same, placed⟩ := Recovering.bind_eq_ok placed
  cases same
  split at placed
  next found =>
    cases placed
    obtain ⟨ks, fills⟩ := bindAll?_start.mp found
    exact fills.types
  next => cases placed

/-- Two words next to each other in a chunk, in a struct of which no field is empty or straddles two chunks, are one piece
with all fields of the chunk if these are words; if they are not, each field of the chunk is a piece of its own. Each
piece takes one register. -/
theorem words_joined_or_apart (a : Architecture) (name : String) (fields : List Ty) (packed : Bool)
    (sized : ((ofArchitecture a).size? (.struct name fields packed)).isSome) :
    ∃ spans pieces, (ofArchitecture a).fieldSpans? fields packed = some spans ∧
      (ofArchitecture a).Spanned name fields packed spans ∧
      (ofArchitecture a).mergeFields? fields packed = some pieces ∧
      ((∀ s ∈ spans, s.size ≠ 0 ∧ ¬s.Straddles) → ∀ before s t after, spans = before ++ s :: t :: after →
        s.isWord = true → t.isWord = true → s.chunk = t.chunk →
        ∃ earlier g h later, before = earlier ++ g ∧ after = h ++ later ∧
          IsRun spans s.chunk earlier (g ++ s :: t :: h) later ∧
          FieldSpan.Becomes earlier (g ++ s :: t :: h) later pieces) ∧
      ∀ (c : Convention) (s : Signature) (values : List ValueDecl), c.coalesceStructFields = true → s.structRet = none →
        s.ret = .struct name fields packed → c.placeReturn (ofArchitecture a) s = .ok (.registers values) →
        values.map ValueDecl.ty = pieces := by
  obtain ⟨spans, found, spanned, ready⟩ := DataLayout.spanned_of_sized sized
  have merged := DataLayout.mergeFields?_eq found
  refine ⟨spans, _, found, spanned, merged, ?_, fun c s values coalesces direct struct placed => ?_⟩
  · rintro within before s t after rfl word word' same
    have fits (u : FieldSpan) (member : u ∈ before ++ s :: t :: after) :=
      DataLayout.fitsChunk_of_within (ready.inWord u member) (within u member)
    obtain ⟨earlier, g, h, later, isRun, front, back⟩ := FieldSpan.exists_isRun before s t after same
    refine ⟨earlier, g, h, later, front, back, isRun, ?_⟩
    rw [if_pos fits]
    exact ready.becomes fits isRun
  · exact returned_types coalesces direct struct merged placed

def smallReturn : Signature :=
  { wideReturn with ret := .struct "small" [.i32, .i16, .f64] false }

theorem smallReturn_joined : ((ofArchitecture .x86_64).size? smallReturn.ret).isSome ∧
    systemV.placeReturn (ofArchitecture .x86_64) smallReturn =
      .ok (.registers [.inRegister "RAX" .i64, .inRegister "XMM0" .f64]) ∧
    ∃ w, Ty.int w = .i64 ∧ FieldSpan.Together [⟨.i32, 0, 4⟩, ⟨.i16, 4, 2⟩] w := by
  have sized : ((ofArchitecture .x86_64).size? smallReturn.ret).isSome := by decide +kernel
  have at_ : (ofArchitecture .x86_64).fieldSpans? [.i32, .i16, .f64] false =
      some [⟨.i32, 0, 4⟩, ⟨.i16, 4, 2⟩, ⟨.f64, 8, 8⟩] := by decide +kernel
  have placed : systemV.placeReturn (ofArchitecture .x86_64) smallReturn =
      .ok (.registers [.inRegister "RAX" .i64, .inRegister "XMM0" .f64]) := by decide +kernel
  refine ⟨sized, placed, ?_⟩
  obtain ⟨spans, pieces, found, -, -, joined, types⟩ := words_joined_or_apart .x86_64 "small" _ _ sized
  cases Option.some.inj (at_.symm.trans found)
  have returned := types systemV smallReturn _ rfl rfl rfl placed
  obtain ⟨earlier, g, h, later, front, back, isRun, pieces', middle, others, same, cut, -, together, -⟩ :=
    joined (by decide) [] ⟨.i32, 0, 4⟩ ⟨.i16, 4, 2⟩ [⟨.f64, 8, 8⟩] rfl rfl rfl rfl
  obtain ⟨rfl, rfl⟩ := List.nil_eq_append_iff.mp front
  cases h with
  | nil =>
    obtain ⟨w, rfl, cover⟩ := together (by decide) (by decide)
    cases List.eq_nil_of_length_eq_zero (Nat.le_zero.mp cut.length_le)
    rw [← returned] at same
    exact ⟨w, (List.cons.inj same).1.symm, cover⟩
  | cons u h =>
    cases (List.cons.inj back).1
    cases isRun.inChunk ⟨.f64, 8, 8⟩ (by simp)

/-- Two integers of one chunk, with a float behind them in it: each has a register of its own. -/
theorem mixedReturn_apart :
    let spans : List FieldSpan := [⟨.i16, 0, 2⟩, ⟨.i16, 2, 2⟩, ⟨.f32, 4, 4⟩]
    (ofArchitecture .x86_64).fieldSpans? [.i16, .i16, .f32] false = some spans ∧
      (∀ s ∈ spans, s.size ≠ 0 ∧ s.chunk = 0 ∧ (s.stop - 1) / FieldSpan.chunkBytes = 0) ∧
      (∀ s ∈ spans.take 2, s.isWord = true) ∧
      (ofArchitecture .x86_64).mergeFields? [.i16, .i16, .f32] false = some [.i16, .i16, .f32] ∧
      systemV.placeReturn (ofArchitecture .x86_64) { wideReturn with ret := .struct "r" [.i16, .i16, .f32] false } =
        .ok (.registers [.inRegister "EAX" .i16, .inRegister "EDX" .i16, .inRegister "XMM0" .f32]) := by
  refine ⟨?_, ?_, ?_, ?_, ?_⟩ <;> decide +kernel

end Convention

end VarRecovery
