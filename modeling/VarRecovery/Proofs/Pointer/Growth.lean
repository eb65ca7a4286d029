import VarRecovery.Pointer.Phi
import VarRecovery.Proofs.Pointer.Soundness

/-!
What edits leave as it is: all that is known of values and instructions, and the listing but for dead code.
-/

set_option autoImplicit false

namespace VarRecovery

namespace Graph

def MergesAddresses (g : Graph) (i : InstId) : Prop :=
  ∃ incoming ty, g.inst? i = some (.phi incoming ty) ∧ ∀ e ∈ incoming, g.IsAddress e.1

variable {g h : Graph}

theorem IsAddress.lt {v : ValueId} (address : g.IsAddress v) : v.index < g.values.size := by
  obtain ⟨arg, ty, defining⟩ := address
  obtain ⟨i, definition, -⟩ := Option.bind_eq_some_iff.mp defining
  obtain ⟨ty, found⟩ := definition?_eq_some.mp definition
  exact value?_lt found

theorem IsAddress.of_extends {v : ValueId} (address : g.IsAddress v) (grown : g.Extends h) :
    h.IsAddress v := by
  have inside := address.lt
  obtain ⟨arg, ty, defining⟩ := address
  obtain ⟨i, definition, found⟩ := Option.bind_eq_some_iff.mp defining
  obtain ⟨σ, after, -⟩ := grown.inst i _ found
  refine ⟨σ arg, ty, ?_⟩
  rw [defining?, grown.definition? inside, definition]
  exact after

end Graph

namespace Func

variable {typed fed closed : Prop} {f g : Func} {phis new swept : List InstId}

theorem Edit.grows (edit : Edit typed fed closed new f g) (valid : f.Valid) : f.graph.Extends g.graph := by
  cases edit with
  | imm i => exact .addImm f.graph i
  | insert ty => exact graph_insert f _ ty _ ▸ .emit valid.graph _ _
  | phi => exact graph_insert f _ _ _ ▸ .emit valid.graph _ _
  | replace usable same address => exact .replaceUses _ usable.lt same

theorem Edit.blockIds (edit : Edit typed fed closed new f g) : g.listing.blockIds = f.listing.blockIds := by
  cases edit with
  | imm i => rfl
  | insert ty =>
    rw [listing_insert]
    exact Listing.blockIds_updateAll _ _
  | phi =>
    rw [listing_insert]
    exact Listing.blockIds_updateBlock _ _ _
  | replace => rfl

theorem Edit.listed (edit : Edit typed fed closed new f g) (valid : f.Valid) {i : InstId} (listed : i ∈ f.code) :
    i ∈ g.code := by
  cases edit with
  | imm => exact listed
  | insert ty isPure noPhi noSum anchored =>
    have perm := Listing.perm_insertBefore (i := f.graph.nextInst) valid.code_nodup anchored
    exact (mem_code_of_perm (.before _) perm i).mpr (.inr listed)
  | phi there =>
    have perm := Listing.perm_prepend (i := f.graph.nextInst) valid.blocks_nodup there
    exact (mem_code_of_perm (.top _) perm i).mpr (.inr listed)
  | replace => exact listed

theorem Edit.mergesAddresses (edit : Edit typed fed closed new f g) (valid : f.Valid) {i : InstId}
    (merges : f.graph.MergesAddresses i) : g.graph.MergesAddresses i := by
  have grown := edit.grows valid
  obtain ⟨incoming, ty, found, addresses⟩ := merges
  have kept (e) (member : e ∈ incoming) : g.graph.IsAddress e.1 := (addresses e member).of_extends grown
  cases edit with
  | imm j => exact ⟨incoming, ty, (f.graph.inst?_addImm j i).trans found, kept⟩
  | insert => exact ⟨incoming, ty, by rw [graph_insert, Graph.inst?_emit_of_some found], kept⟩
  | phi => exact ⟨incoming, ty, by rw [graph_insert, Graph.inst?_emit_of_some found], kept⟩
  | @replace _ old new usable same address =>
    by_cases user : i ∈ f.graph.users old
    · refine ⟨_, ty, by rw [updateGraph, Graph.inst?_replaceUses, if_pos user, found]; rfl, fun e member => ?_⟩
      obtain ⟨d, inside, rfl⟩ := List.mem_map.mp member
      by_cases here : d.1 = old
      · simpa [here] using address.of_extends grown
      · simpa [here] using kept d inside
    · exact ⟨incoming, ty, by rw [updateGraph, Graph.inst?_replaceUses, if_neg user, found], kept⟩

theorem Edit.listed_or_new (edit : Edit typed fed closed new f g) (valid : f.Valid) {i : InstId}
    (listed : i ∈ g.code) : i ∈ f.code ∨ i = f.graph.nextInst := by
  cases edit with
  | imm => exact .inl listed
  | insert ty isPure noPhi noSum anchored =>
    have perm := Listing.perm_insertBefore (i := f.graph.nextInst) valid.code_nodup anchored
    exact ((mem_code_of_perm (.before _) perm i).mp listed).symm
  | phi there =>
    have perm := Listing.perm_prepend (i := f.graph.nextInst) valid.blocks_nodup there
    exact ((mem_code_of_perm (.top _) perm i).mp listed).symm
  | replace => exact .inl listed

theorem Edit.known_phi (edit : Edit typed fed closed new f g) (valid : f.Valid) {i : InstId}
    (listed : i ∈ g.code) (isPhi : g.graph.isPhi i) : i ∈ f.code ∨ i ∈ new := by
  refine (edit.listed_or_new valid listed).imp_right ?_
  rintro rfl
  cases edit with
  | imm => exact absurd listed valid.nextInst_not_listed
  | insert ty isPure noPhi =>
    rw [graph_insert, isPhi_nextInst, noPhi] at isPhi
    cases isPhi
  | phi => exact List.mem_singleton_self _
  | replace => exact absurd listed valid.nextInst_not_listed

/-! ### Chains of edits -/

theorem Edits.grows (edits : Edits typed fed closed phis swept f g) (sound : f.Sound typed fed closed) :
    f.graph.Extends g.graph := by
  induction edits with
  | refl => exact .refl _
  | edit before last ih => exact (ih sound).trans (last.grows (before.sound sound).valid)
  | sweep before _ _ ih => exact (ih sound).trans (.untrack _ _)

theorem Edits.blockIds (edits : Edits typed fed closed phis swept f g) :
    g.listing.blockIds = f.listing.blockIds := by
  induction edits with
  | refl => rfl
  | edit _ last ih => exact last.blockIds.trans ih
  | sweep _ _ _ ih => exact (Listing.blockIds_updateAll _ _).trans ih

theorem Edits.listed (edits : Edits typed fed closed phis swept f g) (sound : f.Sound typed fed closed) {i : InstId}
    (listed : i ∈ f.code) (kept : i ∉ swept) : i ∈ g.code := by
  induction edits with
  | refl => exact listed
  | edit before last ih => exact last.listed (before.sound sound).valid (ih sound listed kept)
  | sweep before _ _ ih =>
    simp only [List.mem_append, List.mem_singleton, not_or] at kept
    exact mem_code_remove.mpr ⟨ih sound listed kept.1, kept.2⟩

theorem Edits.removed (edits : Edits typed fed closed phis swept f g) (sound : f.Sound typed fed closed) {i : InstId}
    (member : i ∈ swept) : i.index < g.graph.insts.size ∧ i ∉ g.code := by
  induction edits with
  | refl => cases member
  -- New instructions have new numbers, so what was removed is not written again.
  | edit before last ih =>
    have valid := (before.sound sound).valid
    obtain ⟨inside, gone⟩ := ih sound member
    refine ⟨(last.grows valid).inst_lt inside, fun listed => ?_⟩
    rcases last.listed_or_new valid listed with still | rfl
    · exact gone still
    · exact Nat.lt_irrefl _ inside
  | @sweep f g _ swept j before listed _ ih =>
    have grown : g.graph.Extends (g.remove j).graph := .untrack g.graph j
    rcases List.mem_append.mp member with earlier | last
    · obtain ⟨inside, gone⟩ := ih sound earlier
      exact ⟨grown.inst_lt inside, fun still => gone (mem_code_remove.mp still).1⟩
    · cases List.mem_singleton.mp last
      have inside := (before.sound sound).valid.code_lt i listed
      exact ⟨grown.inst_lt inside, fun still => (mem_code_remove.mp still).2 rfl⟩

theorem Edits.known_phi (edits : Edits typed fed closed phis swept f g) (sound : f.Sound typed fed closed)
    {i : InstId} (listed : i ∈ g.code) (isPhi : g.graph.isPhi i) : i ∈ f.code ∨ i ∈ phis := by
  induction edits with
  | refl => exact .inl listed
  | edit before last ih =>
    have valid := (before.sound sound).valid
    rcases last.known_phi valid listed isPhi with known | new
    · rw [(last.grows valid).isPhi (valid.code_lt i known)] at isPhi
      exact (ih sound known isPhi).imp_right (List.mem_append_left _)
    · exact .inr (List.mem_append_right _ new)
  | sweep _ _ _ ih =>
    rw [Graph.isPhi, remove, Graph.inst?_untrack] at isPhi
    exact ih sound (mem_code_remove.mp listed).1 isPhi

theorem Edits.mergesAddresses (edits : Edits typed fed closed phis swept f g) (sound : f.Sound typed fed closed)
    {i : InstId} (merges : f.graph.MergesAddresses i) : g.graph.MergesAddresses i := by
  induction edits with
  | refl => exact merges
  | edit before last ih => exact last.mergesAddresses (before.sound sound).valid (ih sound merges)
  | sweep before _ _ ih =>
    obtain ⟨incoming, ty, found, addresses⟩ := ih sound merges
    refine ⟨incoming, ty, (Graph.inst?_untrack ..).trans found, fun e member => ?_⟩
    exact (addresses e member).of_extends (.untrack _ _)

theorem Edits.usable (edits : Edits typed fed closed phis swept f g) (sound : f.Sound typed fed closed) {v : ValueId}
    (usable : f.Usable closed v) (kept : ∀ i ∈ swept, f.graph.definition? v ≠ some i) :
    g.Usable closed v where
  lt := (edits.grows sound).value_lt usable.lt
  defined restricted i definition := by
    rw [(edits.grows sound).definition? usable.lt] at definition
    exact edits.listed sound (usable.defined restricted i definition) fun member => kept i member definition

structure Anchor (f : Func) (i : InstId) : Prop where
  listed : i ∈ f.code
  behind : f.graph.isPhi i = false

theorem EndsInTerminators.anchor (ends : f.EndsInTerminators) {b : BlockId × List InstId}
    (block : b ∈ f.listing.blocks) {i : InstId} (last : b.2.getLast? = some i) : f.Anchor i := by
  obtain ⟨j, inst, same, found, terminates⟩ := ends b block
  cases last.symm.trans same
  refine ⟨mem_code_of_block block (List.mem_of_getLast? last), ?_⟩
  rw [Graph.isPhi, found]
  exact Inst.isPhi_of_isTerminator terminates

theorem Edits.anchor (edits : Edits typed fed closed phis swept f g) (sound : f.Sound typed fed closed) {i : InstId}
    (anchor : f.Anchor i) (kept : i ∉ swept) : g.Anchor i where
  listed := edits.listed sound anchor.listed kept
  behind := ((edits.grows sound).isPhi (sound.valid.code_lt i anchor.listed)).trans anchor.behind

/-! ### The values of new code -/

theorem usable_addImm (closed : Prop) (f : Func) (i : Imm) : (f.addImm i).1.Usable closed (f.addImm i).2 := by
  have found : (f.addImm i).1.graph.value? (f.addImm i).2 = some (.imm i) := by
    change (f.graph.addImm i).1.value? (f.graph.addImm i).2 = _
    rcases Graph.addImm_cases f.graph i with ⟨v, known, same⟩ | new
    · rwa [same]
    · rw [new, Graph.value?_addValue]
      exact if_pos rfl
  refine ⟨Graph.value?_lt found, fun _ j definition => ?_⟩
  obtain ⟨ty, result⟩ := Graph.definition?_eq_some.mp definition
  rw [found] at result
  cases result

theorem value?_nextValue (f : Func) (inst : Inst) (ty : Ty) (place : Place) :
    (f.insert inst ty place).1.graph.value? f.graph.nextValue = some (.result f.graph.nextInst ty) := by
  rw [graph_insert, Graph.value?_emit, if_pos rfl]

theorem ty_nextValue (f : Func) (inst : Inst) (ty : Ty) (place : Place) :
    (f.insert inst ty place).1.graph.ty f.graph.nextValue = ty := by
  rw [Graph.ty, value?_nextValue]
  rfl

theorem defining?_nextValue (f : Func) (inst : Inst) (ty : Ty) (place : Place) :
    (f.insert inst ty place).1.graph.defining? f.graph.nextValue = some inst := by
  rw [Graph.defining?, Graph.definition?, value?_nextValue, graph_insert]
  exact (Graph.inst?_emit ..).trans (if_pos rfl)

theorem usable_nextValue {inst : Inst} {ty : Ty} {place : Place}
    (listed : f.graph.nextInst ∈ (f.insert inst ty place).1.code) :
    (f.insert inst ty place).1.Usable closed f.graph.nextValue := by
  have found := value?_nextValue f inst ty place
  refine ⟨Graph.value?_lt found, fun _ i definition => ?_⟩
  obtain ⟨resultTy, result⟩ := Graph.definition?_eq_some.mp definition
  rw [found] at result
  cases result
  exact listed

theorem nextInst_mem_insertBefore (valid : f.Valid) {anchor : InstId} (listed : anchor ∈ f.code) (inst : Inst)
    (ty : Ty) : f.graph.nextInst ∈ (f.insert inst ty (.before anchor)).1.code :=
  (mem_code_of_perm (.before anchor) (Listing.perm_insertBefore valid.code_nodup listed) _).mpr
    (.inl rfl)

end Func

end VarRecovery
