import VarRecovery.Proofs.Pointer.Edit

/-!
Edits keep functions sound, and what is written stays.
-/

set_option autoImplicit false

namespace VarRecovery.Func

variable {typed fed closed : Prop} {f g h : Func}

/-! ### Places -/

theorem mem_code_of_perm {inst : Inst} {ty : Ty} (place : Place)
    (perm : (f.listing.insert f.graph.nextInst place).allInsts.Perm (f.graph.nextInst :: f.code))
    (i : InstId) : i ∈ (f.insert inst ty place).1.code ↔ i = f.graph.nextInst ∨ i ∈ f.code := by
  rw [code, listing_insert]
  exact perm.mem_iff.trans List.mem_cons

theorem EndsInTerminators.insertBefore (ends : f.EndsInTerminators) (inst : Inst) (ty : Ty)
    (anchor : InstId) : (f.insert inst ty (.before anchor)).1.EndsInTerminators := by
  intro b block
  rw [listing_insert] at block
  obtain ⟨old, before, rfl⟩ := List.mem_map.mp block
  obtain ⟨i, last, at_, found, terminates⟩ := ends old before
  refine ⟨i, last, ?_, ?_, terminates⟩
  · exact (Listing.getLast?_flatMap (Listing.getLast?_putBefore _ anchor) old.2).trans at_
  · rw [graph_insert, Graph.inst?_emit_of_some found]

theorem EndsInTerminators.insertTop (ends : f.EndsInTerminators) (inst : Inst) (ty : Ty)
    (top : BlockId) : (f.insert inst ty (.top top)).1.EndsInTerminators := by
  intro b block
  rw [listing_insert] at block
  obtain ⟨old, before, rfl⟩ := List.mem_map.mp block
  obtain ⟨i, last, at_, found, terminates⟩ := ends old before
  refine ⟨i, last, ?_, ?_, terminates⟩
  · obtain ⟨rest, split⟩ := List.getLast?_eq_some_iff.mp at_
    by_cases here : old.1 = top
    · exact List.getLast?_eq_some_iff.mpr ⟨f.graph.nextInst :: rest, by simp [here, split]⟩
    · simpa [here] using at_
  · rw [graph_insert, Graph.inst?_emit_of_some found]

theorem isPhi_emit (valid : f.Valid) {i : InstId} (listed : i ∈ f.code) (inst : Inst) (ty : Ty) :
    (f.graph.emit inst ty).isPhi i = f.graph.isPhi i :=
  (Graph.Extends.emit valid.graph inst ty).isPhi (valid.code_lt i listed)

theorem isPhi_nextInst (g : Graph) (inst : Inst) (ty : Ty) :
    (g.emit inst ty).isPhi g.nextInst = inst.isPhi := by
  rw [Graph.isPhi, Graph.inst?_emit, if_pos rfl]
  rfl

theorem pairwise_putBefore {p : InstId → Prop} {new anchor : InstId} {insts : List InstId}
    (first : insts.Pairwise fun i j => p j → p i) (plain : ¬p new) (behind : ¬p anchor) :
    (insts.flatMap (Listing.putBefore new anchor)).Pairwise fun i j => p j → p i := by
  induction insts with
  | nil => exact .nil
  | cons i rest ih =>
    obtain ⟨above, tail⟩ := List.pairwise_cons.mp first
    -- Behind an instruction that is no phi, nothing is one, whether it was there or is new.
    have later (j : InstId) (inside : j ∈ rest.flatMap (Listing.putBefore new anchor)) (phi : p j) :
        p i := by
      obtain ⟨k, member, from_⟩ := List.mem_flatMap.mp inside
      rcases Listing.mem_putBefore.mp from_ with rfl | ⟨rfl, -⟩
      · exact above j member phi
      · exact absurd phi plain
    rw [List.flatMap_cons, Listing.putBefore]
    split
    next here =>
      subst here
      refine List.pairwise_cons.mpr ⟨fun j inside phi => ?_, List.pairwise_cons.mpr ⟨later, ih tail⟩⟩
      rcases List.mem_cons.mp inside with rfl | inside
      · exact absurd phi behind
      · exact absurd (later j inside phi) behind
    next => exact List.pairwise_cons.mpr ⟨later, ih tail⟩

theorem PhisFirst.insertBefore (valid : f.Valid) (first : f.PhisFirst) {inst : Inst} (ty : Ty)
    {anchor : InstId} (noPhi : inst.isPhi = false) (listed : anchor ∈ f.code)
    (behind : f.graph.isPhi anchor = false) : (f.insert inst ty (.before anchor)).1.PhisFirst := by
  intro b block
  rw [listing_insert] at block
  obtain ⟨old, before, rfl⟩ := List.mem_map.mp block
  rw [graph_insert]
  refine pairwise_putBefore ?_ ?_ ?_
  · refine (first old before).imp_of_mem fun {i j} left right phis => ?_
    rwa [isPhi_emit valid (mem_code_of_block before left),
      isPhi_emit valid (mem_code_of_block before right)]
  · rw [isPhi_nextInst, noPhi]
    exact Bool.false_ne_true
  · rw [isPhi_emit valid listed, behind]
    exact Bool.false_ne_true

theorem PhisFirst.insertTop (valid : f.Valid) (first : f.PhisFirst) {inst : Inst} (ty : Ty)
    {top : BlockId} (isPhi : inst.isPhi) : (f.insert inst ty (.top top)).1.PhisFirst := by
  intro b block
  rw [listing_insert] at block
  obtain ⟨old, before, rfl⟩ := List.mem_map.mp block
  rw [graph_insert]
  have kept : old.2.Pairwise fun i j =>
      (f.graph.emit inst ty).isPhi j → (f.graph.emit inst ty).isPhi i := by
    refine (first old before).imp_of_mem fun {i j} left right phis => ?_
    rwa [isPhi_emit valid (mem_code_of_block before left),
      isPhi_emit valid (mem_code_of_block before right)]
  by_cases here : old.1 = top
  · simp only [here, if_true]
    exact List.pairwise_cons.mpr ⟨fun j _ _ => (isPhi_nextInst f.graph inst ty).trans isPhi, kept⟩
  · simpa only [here, if_false] using kept

/-! ### Edits -/

theorem Sound.usable (sound : f.Sound typed fed closed) {i : InstId} (listed : i ∈ f.code) {v : ValueId}
    (operand : v ∈ f.graph.operands i) : f.Usable closed v :=
  ⟨sound.valid.operand_lt listed operand, fun restricted => sound.defined restricted i listed v operand⟩

theorem Sound.ty_sum (sound : f.Sound typed fed closed) {h : Graph} (grown : f.graph.Extends h) (restricted : closed)
    {i : InstId} (listed : i ∈ f.code) {inst : Inst} (found : f.graph.inst? i = some inst) (isSum : inst.isSum)
    {v : ValueId} (result : h.result? i = some v) : (h.ty v).isPtr = false := by
  rw [grown.result i (Graph.inst?_lt found)] at result
  rw [grown.ty (sound.valid.graph.result_lt result).2]
  exact sound.sums restricted i listed inst found isSum v result

theorem Sound.insert (sound : f.Sound typed fed closed) {inst : Inst} {ty : Ty} {place : Place}
    (usable : ∀ v ∈ inst.operands, f.Usable closed v)
    (blocks : (f.listing.insert f.graph.nextInst place).blockIds = f.listing.blockIds)
    (perm : (f.listing.insert f.graph.nextInst place).allInsts.Perm (f.graph.nextInst :: f.code))
    (ends : (f.insert inst ty place).1.EndsInTerminators)
    (phisFirst : closed → (f.insert inst ty place).1.PhisFirst)
    (casts : typed → f.graph.CastsPointer inst) (grounded : fed → ∀ incoming ty, inst = .phi incoming ty →
      incoming ≠ [] ∧ ∀ e ∈ incoming, e.2 ∈ f.listing.blockIds) (noSum : inst.isSum = false) :
    (f.insert inst ty place).1.Sound typed fed closed := by
  have grown := Graph.Extends.emit sound.valid.graph inst ty
  have listed (i : InstId) : i ∈ (f.insert inst ty place).1.code ↔ i = f.graph.nextInst ∨ i ∈ f.code :=
    mem_code_of_perm place perm i
  -- An instruction of the new listing is the new one or was listed before, with the same operands.
  have known {i : InstId} {other : Inst} (inside : i ∈ (f.insert inst ty place).1.code)
      (found : (f.graph.emit inst ty).inst? i = some other) :
      (i = f.graph.nextInst ∧ other = inst) ∨ (i ∈ f.code ∧ f.graph.inst? i = some other) := by
    rw [Graph.inst?_emit] at found
    split at found
    next new => exact .inl ⟨new, (Option.some.inj found).symm⟩
    next old => exact .inr ⟨((listed i).mp inside).resolve_left old, found⟩
  refine ⟨sound.valid.insert (fun v operand => (usable v operand).lt) blocks perm, ends, ?casts, ?grounded, ?known,
    phisFirst, ?defined, ?listed, ?sums⟩
  case grounded =>
    intro restricted i inside incoming phiTy found
    rw [graph_insert] at found
    rw [listing_insert, blocks]
    rcases known inside found with ⟨-, new⟩ | ⟨before, found⟩
    · exact grounded restricted incoming phiTy new.symm
    · exact sound.grounded restricted i before incoming phiTy found
  case casts =>
    intro restricted i other found
    rw [graph_insert] at found ⊢
    rw [Graph.inst?_emit] at found
    split at found
    next =>
      cases found
      exact (casts restricted).of_extends grown
    next => exact (sound.casts restricted i other found).of_extends grown
  case known =>
    intro restricted i v castTy found
    rw [graph_insert] at found ⊢
    rw [Graph.inst?_emit] at found
    split at found
    next =>
      cases found
      exact grown.value_lt (usable v (List.mem_singleton_self v)).lt
    next => exact grown.value_lt (sound.known restricted i v castTy found)
  case defined =>
    intro restricted i inside v operand j definition
    rw [graph_insert] at operand definition
    obtain ⟨other, found, uses⟩ := Graph.mem_operands.mp operand
    have from_ : f.Usable closed v := by
      rcases known inside found with ⟨-, rfl⟩ | ⟨before, found⟩
      · exact usable v uses
      · exact sound.usable before (Graph.mem_operands.mpr ⟨other, found, uses⟩)
    rw [grown.definition? from_.lt] at definition
    exact (listed j).mpr (.inr (from_.defined restricted j definition))
  case listed =>
    intro restricted v i user
    rw [graph_insert, Graph.mem_users_emit] at user
    refine (listed i).mpr (user.symm.imp And.left fun before => ?_)
    exact sound.listed restricted v i before
  case sums =>
    intro restricted i inside other found isSum v result
    rw [graph_insert] at found result ⊢
    rcases known inside found with ⟨-, rfl⟩ | ⟨before, found⟩
    · exact absurd isSum (by simp [noSum])
    · exact sound.ty_sum grown restricted before found isSum result

theorem Sound.insertBefore (sound : f.Sound typed fed closed) {inst : Inst} {anchor : InstId} (ty : Ty)
    (noPhi : inst.isPhi = false) (noSum : inst.isSum = false) (listed : anchor ∈ f.code)
    (behind : f.graph.isPhi anchor = false) (usable : ∀ v ∈ inst.operands, f.Usable closed v)
    (casts : typed → f.graph.CastsPointer inst) :
    (f.insert inst ty (.before anchor)).1.Sound typed fed closed := by
  refine sound.insert usable (Listing.blockIds_updateAll _ _)
    (Listing.perm_insertBefore sound.valid.code_nodup listed) (sound.ends.insertBefore inst ty anchor)
    (fun restricted => (sound.phisFirst restricted).insertBefore sound.valid ty noPhi listed behind) casts ?_
    noSum
  rintro - incoming phiTy rfl
  cases noPhi

theorem Sound.insertPhi (sound : f.Sound typed fed closed) {incoming : List (ValueId × BlockId)} {ty : Ty}
    {block : BlockId} (listed : block ∈ f.listing.blockIds)
    (usable : ∀ e ∈ incoming, f.Usable closed e.1)
    (grounded : fed → incoming ≠ [] ∧ ∀ e ∈ incoming, e.2 ∈ f.listing.blockIds) :
    (f.insert (.phi incoming ty) ty (.top block)).1.Sound typed fed closed := by
  refine sound.insert ?_ (Listing.blockIds_updateBlock _ _ _)
    (Listing.perm_prepend sound.valid.blocks_nodup listed) (sound.ends.insertTop _ ty block)
    (fun restricted => (sound.phisFirst restricted).insertTop sound.valid ty rfl) ?_ ?_ rfl
  · intro v operand
    obtain ⟨e, member, rfl⟩ := List.mem_map.mp operand
    exact usable e member
  · rintro - v castTy ⟨⟩
  · rintro restricted _ _ ⟨⟩
    exact grounded restricted

theorem Sound.addImm (sound : f.Sound typed fed closed) (i : Imm) : (f.addImm i).1.Sound typed fed closed := by
  have grown : f.graph.Extends (f.addImm i).1.graph := .addImm f.graph i
  have inst (j : InstId) : (f.addImm i).1.graph.inst? j = f.graph.inst? j := f.graph.inst?_addImm i j
  have isPhi : (f.addImm i).1.graph.isPhi = f.graph.isPhi := by
    funext j
    rw [Graph.isPhi, inst, Graph.isPhi]
  refine ⟨sound.valid.addImm i, ?ends, ?casts, ?grounded, ?known, ?phisFirst, ?defined, ?listed, ?sums⟩
  case ends =>
    intro b block
    simpa only [inst] using sound.ends b block
  case grounded =>
    intro restricted j listed incoming ty found
    exact sound.grounded restricted j listed incoming ty (inst j ▸ found)
  case casts =>
    intro restricted j other found
    exact (sound.casts restricted j other (inst j ▸ found)).of_extends grown
  case known =>
    intro restricted j v ty found
    exact grown.value_lt (sound.known restricted j v ty (inst j ▸ found))
  case phisFirst =>
    intro restricted b block
    rw [isPhi]
    exact sound.phisFirst restricted b block
  case defined =>
    intro restricted j listed v operand k definition
    rw [Graph.operands, inst] at operand
    rw [grown.definition? (sound.valid.operand_lt listed operand)] at definition
    exact sound.defined restricted j listed v operand k definition
  case listed =>
    intro restricted v j user
    exact sound.listed restricted v j (f.graph.users_addImm i v ▸ user)
  case sums =>
    intro restricted j listed other found isSum v result
    rw [inst] at found
    exact sound.ty_sum grown restricted listed found isSum result

theorem Sound.replaceUses (sound : f.Sound typed fed closed) {old new : ValueId} (usable : f.Usable closed new)
    (same : f.graph.ty new = f.graph.ty old) :
    (f.updateGraph (·.replaceUses old new)).Sound typed fed closed := by
  have grown := Graph.Extends.replaceUses old usable.lt same
  -- An instruction was one with other operands before.
  have known {i : InstId} {other : Inst} (found : (f.graph.replaceUses old new).inst? i = some other) :
      ∃ σ : ValueId → ValueId, ∃ inst, f.graph.inst? i = some inst ∧ other = inst.mapOperands σ ∧
        ∀ v, f.graph.ty (σ v) = f.graph.ty v ∧ (v.index < f.graph.values.size → (σ v).index < f.graph.values.size) := by
    rw [Graph.inst?_replaceUses] at found
    split at found
    next =>
      obtain ⟨inst, before, rfl⟩ := Option.map_eq_some_iff.mp found
      refine ⟨fun v => if v = old then new else v, inst, before, rfl, fun v => ?_⟩
      by_cases here : v = old <;> simp [here, same, usable.lt]
    next => exact ⟨id, other, found, (Inst.mapOperands_id other).symm, fun _ => ⟨rfl, fun inside => inside⟩⟩
  refine ⟨sound.valid.replaceUses old usable.lt, ?ends, ?casts, ?grounded, ?known, ?phisFirst, ?defined,
    ?listed, ?sums⟩
  case ends =>
    intro b block
    obtain ⟨i, inst, last, found, terminates⟩ := sound.ends b block
    obtain ⟨σ, after, -⟩ := grown.inst i inst found
    exact ⟨i, _, last, after, by rwa [Inst.isTerminator_mapOperands]⟩
  case grounded =>
    intro restricted i listed incoming ty found
    obtain ⟨σ, inst, before, mapped, -⟩ := known found
    cases inst with
    | phi from_ phiTy =>
      cases mapped
      obtain ⟨some_, blocks⟩ := sound.grounded restricted i listed from_ ty before
      refine ⟨by simpa using some_, fun e member => ?_⟩
      obtain ⟨d, inside, rfl⟩ := List.mem_map.mp member
      exact blocks d inside
    | _ => cases mapped
  case casts =>
    intro restricted i other found v ty cast
    obtain ⟨σ, inst, before, rfl, types⟩ := known found
    cases inst with
    | cast op arg castTy =>
      cases cast
      exact (Graph.ty_replaceUses ..).trans (types arg).1 ▸ sound.casts restricted i _ before arg ty rfl
    | _ => cases cast
  case known =>
    intro restricted i v ty found
    obtain ⟨σ, inst, before, mapped, kept⟩ := known found
    cases inst with
    | cast op arg castTy =>
      cases mapped
      exact grown.value_lt ((kept arg).2 (sound.known restricted i arg ty before))
    | _ => cases mapped
  case phisFirst =>
    intro restricted b block
    refine (sound.phisFirst restricted b block).imp_of_mem fun {i j} left right phis => ?_
    rwa [updateGraph, grown.isPhi (sound.valid.code_lt i (mem_code_of_block block left)),
      grown.isPhi (sound.valid.code_lt j (mem_code_of_block block right))]
  case defined =>
    intro restricted i listed v operand j definition
    rcases (Graph.mem_operands_replaceUses sound.valid.graph).mp operand with ⟨before, -⟩ | ⟨rfl, -⟩
    · have from_ := sound.usable listed before
      rw [updateGraph, grown.definition? from_.lt] at definition
      exact from_.defined restricted j definition
    · rw [updateGraph, grown.definition? usable.lt] at definition
      exact usable.defined restricted j definition
  case listed =>
    intro restricted v i user
    rcases (Graph.mem_users_replaceUses f.graph (sound.valid.graph.size_userLists ▸ usable.lt) i v).mp user
      with ⟨before, -⟩ | ⟨-, before⟩
    · exact sound.listed restricted v i before
    · exact sound.listed restricted old i before
  case sums =>
    intro restricted i listed other found isSum v result
    obtain ⟨σ, inst, before, rfl, -⟩ := known found
    rw [Inst.isSum_mapOperands] at isSum
    exact sound.ty_sum grown restricted listed before isSum result

theorem isDead_iff {i : InstId} : f.isDead i ↔
    ∃ inst v, f.graph.inst? i = some inst ∧ inst.isPure ∧ f.graph.result? i = some v ∧
      f.graph.users v = [] := by
  unfold isDead
  cases f.graph.inst? i <;> cases f.graph.result? i <;> simp

theorem Sound.remove (sound : f.Sound typed fed closed) {i : InstId} (dead : f.isDead i) :
    (f.remove i).Sound typed fed closed := by
  obtain ⟨inst, v, found, isPure, result, unused⟩ := isDead_iff.mp dead
  have grown : f.graph.Extends (f.remove i).graph := .untrack f.graph i
  have inst? (j : InstId) : (f.remove i).graph.inst? j = f.graph.inst? j := f.graph.inst?_untrack i j
  have blocks {b : BlockId × List InstId} (block : b ∈ (f.remove i).listing.blocks) :
      ∃ old ∈ f.listing.blocks, (old.1, old.2.filter (· ≠ i)) = b :=
    List.mem_map.mp (f.listing.blocks_remove i ▸ block)
  refine ⟨sound.valid.remove i, ?ends, ?casts, ?grounded, ?known, ?phisFirst, ?defined, ?listed, ?sums⟩
  case ends =>
    intro b block
    obtain ⟨old, before, rfl⟩ := blocks block
    obtain ⟨last, ending, at_, known, terminates⟩ := sound.ends old before
    -- A terminator is not pure, so it is not what goes.
    have other : last ≠ i := by
      rintro rfl
      rw [known] at found
      cases found
      simp [Inst.isPure_of_isTerminator terminates] at isPure
    obtain ⟨rest, split⟩ := List.getLast?_eq_some_iff.mp at_
    exact ⟨last, ending, by simp [split, List.filter_append, other], inst? last ▸ known, terminates⟩
  case grounded =>
    intro restricted j listed incoming ty found
    rw [inst?] at found
    have kept : (f.remove i).listing.blockIds = f.listing.blockIds := Listing.blockIds_updateAll _ _
    rw [kept]
    exact sound.grounded restricted j (mem_code_remove.mp listed).1 incoming ty found
  case casts =>
    intro restricted j other found
    exact (sound.casts restricted j other (inst? j ▸ found)).of_extends grown
  case known =>
    intro restricted j v ty found
    exact grown.value_lt (sound.known restricted j v ty (inst? j ▸ found))
  case phisFirst =>
    intro restricted b block
    obtain ⟨old, before, rfl⟩ := blocks block
    refine ((sound.phisFirst restricted old before).imp fun {j k} phis => ?_).filter _
    simpa only [Graph.isPhi, inst?] using phis
  case defined =>
    intro restricted j listed w operand k definition
    obtain ⟨before, -⟩ := mem_code_remove.mp listed
    have uses : w ∈ f.graph.operands j := f.graph.operands_untrack i j ▸ operand
    have from_ := sound.usable before uses
    rw [grown.definition? from_.lt] at definition
    -- What defines the operand is not what goes, whose result nothing uses.
    refine mem_code_remove.mpr ⟨from_.defined restricted k definition, ?_⟩
    rintro rfl
    have same : some v = some w := result.symm.trans ((sound.valid.graph.result_iff k w).mpr definition)
    cases same
    simpa [unused] using sound.valid.used j before v uses
  case listed =>
    intro restricted w j user
    obtain ⟨before, other⟩ := sound.valid.graph.mem_users_untrack.mp user
    exact mem_code_remove.mpr ⟨sound.listed restricted w j before, other⟩
  case sums =>
    intro restricted j listed other found isSum w result
    rw [inst?] at found
    exact sound.ty_sum grown restricted (mem_code_remove.mp listed).1 found isSum result

theorem Edit.sound {new : List InstId} (edit : Edit typed fed closed new f g) (sound : f.Sound typed fed closed) :
    g.Sound typed fed closed := by
  cases edit with
  | imm i => exact sound.addImm i
  | insert ty isPure noPhi noSum listed behind usable casts =>
    exact sound.insertBefore ty noPhi noSum listed behind usable casts
  | phi listed usable isPtr grounded => exact sound.insertPhi listed usable grounded
  | replace usable same address => exact sound.replaceUses usable same

theorem Edits.sound {phis swept : List InstId} (edits : Edits typed fed closed phis swept f g)
    (sound : f.Sound typed fed closed) : g.Sound typed fed closed := by
  induction edits with
  | refl => exact sound
  | edit _ last ih => exact last.sound (ih sound)
  | sweep _ listed dead ih => exact (ih sound).remove dead

end VarRecovery.Func
