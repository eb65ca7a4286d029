import Mathlib.Data.List.Nodup
import VarRecovery.Code.Listing

/-!
Where instructions are listed when one is put in front of another or at the top of a block, or taken out.
-/

set_option autoImplicit false

namespace VarRecovery.Listing

variable {l : Listing} {i j anchor : InstId} {block : BlockId}

/-- What comes to stand in the place of an instruction when `i` is put in front of `anchor`. -/
def putBefore (i anchor j : InstId) : List InstId :=
  if j = anchor then [i, j] else [j]

theorem insertBefore_eq (l : Listing) (i anchor : InstId) :
    l.insertBefore i anchor = l.updateAll (putBefore i anchor) := rfl

theorem mem_putBefore {i anchor j k : InstId} : k ∈ putBefore i anchor j ↔ k = j ∨ (k = i ∧ j = anchor) := by
  unfold putBefore
  split
  next same => simp [same, or_comm]
  next differ => simp [differ]

theorem getLast?_putBefore (i anchor j : InstId) : (putBefore i anchor j).getLast? = some j := by
  unfold putBefore
  split <;> rfl

theorem getLast?_flatMap {f : InstId → List InstId} (last : ∀ j, (f j).getLast? = some j)
    (insts : List InstId) : (insts.flatMap f).getLast? = insts.getLast? := by
  induction insts with
  | nil => rfl
  | cons j js ih =>
    rw [List.flatMap_cons, List.getLast?_append, ih, last]
    cases js with
    | nil => rfl
    | cons k ks => rw [List.getLast?_cons_cons, List.getLast?_cons]; rfl

theorem allInsts_updateAll (l : Listing) (f : InstId → List InstId) :
    (l.updateAll f).allInsts = l.allInsts.flatMap f := by
  simp [allInsts, updateAll, List.flatMap_map, List.flatMap_assoc]

/-- Code in which nothing is put in the place of others than `anchor` changes where it holds `anchor` only. -/
theorem flatMap_of_not_mem {f : InstId → List InstId} (still : ∀ j, j ≠ anchor → f j = [j]) {insts : List InstId}
    (absent : anchor ∉ insts) : insts.flatMap f = insts := by
  rw [List.flatMap_congr fun j member => still j fun same => absent (same ▸ member)]
  simp

theorem perm_flatMap {f : InstId → List InstId} (still : ∀ j, j ≠ anchor → f j = [j])
    (here : (f anchor).Perm [i, anchor]) {insts : List InstId} (nodup : insts.Nodup) (member : anchor ∈ insts) :
    (insts.flatMap f).Perm (i :: insts) := by
  induction insts with
  | nil => cases member
  | cons j js ih =>
    obtain ⟨absent, rest⟩ := List.nodup_cons.mp nodup
    rw [List.flatMap_cons]
    rcases List.mem_cons.mp member with rfl | inside
    · rw [flatMap_of_not_mem still absent]
      exact here.append_right js
    · have other : j ≠ anchor := fun same => absent (same ▸ inside)
      rw [still j other]
      exact ((ih rest inside).cons j).trans (.swap i j js)

theorem perm_updateAll {f : InstId → List InstId} (still : ∀ j, j ≠ anchor → f j = [j])
    (here : (f anchor).Perm [i, anchor]) (nodup : l.allInsts.Nodup) (member : anchor ∈ l.allInsts) :
    (l.updateAll f).allInsts.Perm (i :: l.allInsts) := by
  rw [allInsts_updateAll]
  exact perm_flatMap still here nodup member

theorem perm_insertBefore (nodup : l.allInsts.Nodup) (member : anchor ∈ l.allInsts) :
    (l.insertBefore i anchor).allInsts.Perm (i :: l.allInsts) :=
  perm_updateAll (fun _ other => if_neg other) (by simp) nodup member

theorem perm_insertAfter (nodup : l.allInsts.Nodup) (member : anchor ∈ l.allInsts) :
    (l.insertAfter i anchor).allInsts.Perm (i :: l.allInsts) :=
  perm_updateAll (fun _ other => if_neg other) (by simpa using List.Perm.swap i anchor []) nodup member

theorem perm_updateBlock {f : List InstId → List InstId} (more : ∀ insts, (f insts).Perm (i :: insts))
    (nodup : l.blockIds.Nodup) (member : block ∈ l.blockIds) :
    (l.updateBlock block f).allInsts.Perm (i :: l.allInsts) := by
  obtain ⟨blocks⟩ := l
  simp only [updateBlock, allInsts, blockIds] at *
  induction blocks with
  | nil => cases member
  | cons b bs ih =>
    obtain ⟨absent, rest⟩ := List.nodup_cons.mp nodup
    rw [List.map_cons, List.flatMap_cons, List.flatMap_cons]
    by_cases here : b.1 = block
    · have other (c : BlockId × List InstId) (inside : c ∈ bs) : c.1 ≠ block := fun same =>
        absent (List.mem_map.mpr ⟨c, inside, same.trans here.symm⟩)
      have plain : (bs.map fun c => if c.1 = block then (c.1, f c.2) else (c.1, c.2)) = bs :=
        (List.map_congr_left fun c inside => if_neg (other c inside)).trans (List.map_id bs)
      rw [plain, if_pos here]
      exact (more b.2).append_right _
    · have inside : block ∈ bs.map Prod.fst := by
        rcases List.mem_cons.mp member with same | inside
        · exact absurd same.symm here
        · exact inside
      simp only [here, if_false]
      exact ((ih rest inside).append_left b.2).trans List.perm_middle

theorem perm_prepend (nodup : l.blockIds.Nodup) (member : block ∈ l.blockIds) :
    (l.prepend i block).allInsts.Perm (i :: l.allInsts) :=
  perm_updateBlock (fun _ => .refl _) nodup member

theorem perm_append (nodup : l.blockIds.Nodup) (member : block ∈ l.blockIds) :
    (l.append i block).allInsts.Perm (i :: l.allInsts) :=
  perm_updateBlock (fun insts => List.perm_append_singleton i insts) nodup member

@[simp] theorem blockIds_updateAll (l : Listing) (f : InstId → List InstId) :
    (l.updateAll f).blockIds = l.blockIds := by
  simp [blockIds, updateAll, Function.comp_def]

@[simp] theorem blockIds_updateBlock (l : Listing) (block : BlockId) (f : List InstId → List InstId) :
    (l.updateBlock block f).blockIds = l.blockIds := by
  simp only [blockIds, updateBlock, List.map_map]
  refine List.map_congr_left fun b _ => ?_
  by_cases here : b.1 = block <;> simp [here]

theorem flatMap_drop (i : InstId) (insts : List InstId) :
    (insts.flatMap fun j => if j = i then [] else [j]) = insts.filter (· ≠ i) := by
  induction insts with
  | nil => rfl
  | cons j js ih => by_cases same : j = i <;> simp [same, ih]

theorem blocks_remove (l : Listing) (i : InstId) :
    (l.remove i).blocks = l.blocks.map fun b => (b.1, b.2.filter (· ≠ i)) :=
  List.map_congr_left fun b _ => Prod.ext rfl (flatMap_drop i b.2)

theorem allInsts_remove (l : Listing) (i : InstId) : (l.remove i).allInsts = l.allInsts.filter (· ≠ i) := by
  rw [remove, allInsts_updateAll, flatMap_drop]

/-- Nothing comes to be listed but what is put there. -/
theorem mem_allInsts_updateBlock {f : List InstId → List InstId} (adds : ∀ insts, j ∈ f insts → j = i ∨ j ∈ insts)
    (listed : j ∈ (l.updateBlock block f).allInsts) : j = i ∨ j ∈ l.allInsts := by
  obtain ⟨c, member, inside⟩ := List.mem_flatMap.mp listed
  obtain ⟨d, before, rfl⟩ := List.mem_map.mp member
  dsimp only at inside
  split at inside
  next => exact (adds d.2 inside).imp_right fun inside => List.mem_flatMap.mpr ⟨d, before, inside⟩
  next => exact .inr (List.mem_flatMap.mpr ⟨d, before, inside⟩)

theorem mem_allInsts_updateAll {f : InstId → List InstId} (adds : ∀ k, j ∈ f k → j = i ∨ j = k)
    (listed : j ∈ (l.updateAll f).allInsts) : j = i ∨ j ∈ l.allInsts := by
  rw [allInsts_updateAll] at listed
  obtain ⟨k, member, put⟩ := List.mem_flatMap.mp listed
  refine (adds k put).imp_right ?_
  rintro rfl
  exact member

/-! ### Blocks -/

theorem mem_blocks_of_insts {insts : List InstId} (at_ : l.insts block = insts) (some_ : insts ≠ []) :
    (block, insts) ∈ l.blocks := by
  unfold Listing.insts at at_
  cases found : l.blocks.find? (·.1 = block) with
  | none =>
    rw [found] at at_
    exact absurd at_.symm some_
  | some b =>
    rw [found] at at_
    cases at_
    have here : b.1 = block := by simpa using List.find?_some found
    exact here ▸ List.mem_of_find?_eq_some found

theorem exists_block_of_mem_blockIds (member : block ∈ l.blockIds) :
    (block, l.insts block) ∈ l.blocks := by
  obtain ⟨b, inside, here⟩ := List.mem_map.mp member
  unfold Listing.insts
  cases found : l.blocks.find? (·.1 = block) with
  | none => exact absurd here (by simpa using List.find?_eq_none.mp found b inside)
  | some c =>
    have same : c.1 = block := by simpa using List.find?_some found
    exact same ▸ List.mem_of_find?_eq_some found

theorem insts_updateAll (l : Listing) (f : InstId → List InstId) (block : BlockId) :
    (l.updateAll f).insts block = (l.insts block).flatMap f := by
  simp only [Listing.insts, updateAll, List.find?_map, Function.comp_def]
  cases l.blocks.find? fun b => b.1 = block <;> rfl

theorem mem_insts_insertBefore (member : j ∈ l.insts block) : j ∈ (l.insertBefore i anchor).insts block := by
  rw [insertBefore_eq, insts_updateAll]
  exact List.mem_flatMap.mpr ⟨j, member, mem_putBefore.mpr (.inl rfl)⟩

theorem self_mem_insts_insertBefore (member : anchor ∈ l.insts block) :
    i ∈ (l.insertBefore i anchor).insts block := by
  rw [insertBefore_eq, insts_updateAll]
  exact List.mem_flatMap.mpr ⟨anchor, member, mem_putBefore.mpr (.inr ⟨rfl, rfl⟩)⟩

theorem mem_insts_prepend {top : BlockId} (member : j ∈ l.insts block) :
    j ∈ (l.prepend i top).insts block := by
  have same (b : BlockId × List InstId) :
      (if b.1 = top then (b.1, i :: b.2) else (b.1, b.2)).1 = b.1 := by split <;> rfl
  unfold Listing.insts at *
  simp only [prepend, updateBlock, List.find?_map, Function.comp_def, same]
  cases found : l.blocks.find? fun b => b.1 = block with
  | none => simp [found] at member
  | some b =>
    rw [found] at member
    have inside : j ∈ b.2 := member
    change j ∈ (if b.1 = top then (b.1, i :: b.2) else (b.1, b.2)).2
    split
    · exact List.mem_cons_of_mem _ inside
    · exact inside

theorem mem_insts_remove (member : j ∈ l.insts block) (other : j ≠ i) : j ∈ (l.remove i).insts block := by
  rw [remove, insts_updateAll, flatMap_drop]
  simp [member, other]

theorem exists_blockOf? (listed : i ∈ l.allInsts) :
    ∃ block, l.blockOf? i = some block ∧ block ∈ l.blockIds := by
  obtain ⟨b, block, inside⟩ := List.mem_flatMap.mp listed
  unfold blockOf?
  cases found : l.blocks.find? (i ∈ ·.2) with
  | none => exact absurd inside (by simpa using List.find?_eq_none.mp found b block)
  | some c => exact ⟨c.1, rfl, List.mem_map_of_mem (List.mem_of_find?_eq_some found)⟩

/-! ### What a block holds -/

variable {s : Listing} {b c : BlockId}

theorem insts_of_not_mem (absent : b ∉ s.blockIds) : s.insts b = [] := by
  unfold Listing.insts
  cases found : s.blocks.find? (·.1 = b) with
  | none => rfl
  | some e =>
    have here : e.1 = b := by simpa using List.find?_some found
    exact absurd (List.mem_map.mpr ⟨e, List.mem_of_find?_eq_some found, here⟩) absent

theorem mem_blockIds_of_insts (inside : i ∈ s.insts b) : b ∈ s.blockIds :=
  Decidable.byContradiction fun absent => by simp [insts_of_not_mem absent] at inside

theorem insts_updateBlock (s : Listing) (b c : BlockId) (f : List InstId → List InstId) :
    (s.updateBlock b f).insts c = if c = b ∧ b ∈ s.blockIds then f (s.insts c) else s.insts c := by
  have same (e : BlockId × List InstId) :
      (if e.1 = b then (e.1, f e.2) else (e.1, e.2)).1 = e.1 := by split <;> rfl
  by_cases listed : c ∈ s.blockIds
  · obtain ⟨e, found⟩ : ∃ e, s.blocks.find? (·.1 = c) = some e := by
      refine Option.isSome_iff_exists.mp (List.find?_isSome.mpr ?_)
      obtain ⟨e, member, here⟩ := List.mem_map.mp listed
      exact ⟨e, member, by simpa using here⟩
    have here : e.1 = c := by simpa using List.find?_some found
    simp only [Listing.insts, updateBlock, List.find?_map, Function.comp_def, same, found, Option.map_some,
      Option.getD_some, here]
    by_cases at_ : c = b
    · subst at_
      simp [listed]
    · simp [at_]
  · have absent : c ∉ (s.updateBlock b f).blockIds := by rwa [blockIds_updateBlock]
    rw [insts_of_not_mem absent, insts_of_not_mem listed, if_neg]
    rintro ⟨rfl, member⟩
    exact listed member

theorem insts_appendBlock (new : b ∉ s.blockIds) (c : BlockId) : (s.appendBlock b).insts c = s.insts c := by
  by_cases here : c = b
  · subst here
    rw [insts_of_not_mem new]
    have absent : s.blocks.find? (·.1 = c) = none := List.find?_eq_none.mpr fun e member same =>
      new (List.mem_map.mpr ⟨e, member, by simpa using same⟩)
    simp [Listing.insts, appendBlock, List.find?_append, absent]
  · have other : ¬b = c := fun same => here same.symm
    simp [Listing.insts, appendBlock, List.find?_append, other]

/-- With each block listed once, a listing is known by the blocks and what they hold. -/
theorem blocks_eq (nodup : s.blockIds.Nodup) : s.blocks = s.blockIds.map fun b => (b, s.insts b) := by
  rw [blockIds, List.map_map]
  refine (List.map_congr_left fun e member => ?_).trans (List.map_id s.blocks) |>.symm
  have found : s.blocks.find? (·.1 = e.1) = some e := by
    cases known : s.blocks.find? (·.1 = e.1) with
    | none => exact absurd (List.find?_eq_none.mp known e member) (by simp)
    | some d =>
      have here : d.1 = e.1 := by simpa using List.find?_some known
      exact congrArg some (List.inj_on_of_nodup_map nodup (List.mem_of_find?_eq_some known) member here)
  simp [Listing.insts, found]

theorem ext_insts {t : Listing} (nodup : s.blockIds.Nodup) (blocks : t.blockIds = s.blockIds)
    (insts : ∀ b ∈ s.blockIds, t.insts b = s.insts b) : t = s := by
  have first := blocks_eq (s := t) (blocks ▸ nodup)
  rw [blocks, List.map_congr_left fun b member => by rw [insts b member], ← blocks_eq nodup] at first
  cases s
  cases t
  simpa using first

/-- What a block is given may be known from what it holds. -/
theorem updateBlock_congr (nodup : s.blockIds.Nodup) {f : List InstId → List InstId} :
    s.updateBlock b f = s.updateBlock b fun _ => f (s.insts b) := by
  refine ext_insts (by rwa [blockIds_updateBlock]) (by simp only [blockIds_updateBlock]) fun c _ => ?_
  rw [insts_updateBlock, insts_updateBlock]
  split
  next here => rw [here.1]
  next => rfl

theorem mem_allInsts (nodup : s.blockIds.Nodup) : i ∈ s.allInsts ↔ ∃ b, i ∈ s.insts b := by
  constructor
  · intro listed
    rw [allInsts, blocks_eq nodup] at listed
    obtain ⟨e, member, inside⟩ := List.mem_flatMap.mp listed
    obtain ⟨b, -, rfl⟩ := List.mem_map.mp member
    exact ⟨b, inside⟩
  · rintro ⟨b, inside⟩
    exact List.mem_flatMap.mpr ⟨(b, s.insts b), mem_blocks_of_insts rfl (List.ne_nil_of_mem inside), inside⟩

theorem mem_insts_of_blockOf? (nodup : s.blockIds.Nodup) (found : s.blockOf? i = some b) : i ∈ s.insts b := by
  obtain ⟨e, known, rfl⟩ := Option.map_eq_some_iff.mp found
  have member := List.mem_of_find?_eq_some known
  rw [blocks_eq nodup] at member
  obtain ⟨c, -, rfl⟩ := List.mem_map.mp member
  simpa using List.find?_some known

theorem blockOf?_eq_none (absent : i ∉ s.allInsts) : s.blockOf? i = none := by
  rw [blockOf?, Option.map_eq_none_iff, List.find?_eq_none]
  intro e member inside
  exact absent (List.mem_flatMap.mpr ⟨e, member, by simpa using inside⟩)

/-- What comes in the place of one instruction changes the block that holds it, and no other. -/
theorem updateAll_eq (nodup : s.blockIds.Nodup) {xs ys : List InstId} (block : s.insts b = xs ++ i :: ys)
    (once : i ∉ xs ++ ys) (other : ∀ c, i ∈ s.insts c → c = b) {f : InstId → List InstId}
    (still : ∀ j, j ≠ i → f j = [j]) : s.updateAll f = s.updateBlock b fun _ => xs ++ (f i ++ ys) := by
  have listed : b ∈ s.blockIds := mem_blockIds_of_insts (i := i) (by simp [block])
  refine ext_insts ?_ ?_ fun c _ => ?_
  · rwa [blockIds_updateBlock]
  · rw [blockIds_updateAll, blockIds_updateBlock]
  · rw [insts_updateAll, insts_updateBlock]
    by_cases here : c = b
    · subst here
      simp only [List.mem_append, not_or] at once
      rw [if_pos ⟨rfl, listed⟩, block, List.flatMap_append, List.flatMap_cons,
        flatMap_of_not_mem still once.1, flatMap_of_not_mem still once.2]
    · rw [if_neg (fun both => here both.1), flatMap_of_not_mem still fun inside => here (other c inside)]

end VarRecovery.Listing
