import VarRecovery.Code.Func
import VarRecovery.Proofs.Code.Listing
import VarRecovery.Proofs.Code.Valid

/-!
Functions whose listing and graph fit together, and what keeps them so.
-/

set_option autoImplicit false

namespace VarRecovery

namespace Listing

/-- Whether a place is there. -/
def Offers (s : Listing) : Place → Prop
  | .top b | .bottom b => b ∈ s.blockIds
  | .before anchor | .after anchor => anchor ∈ s.allInsts

instance (s : Listing) : (place : Place) → Decidable (s.Offers place)
  | .top b | .bottom b => inferInstanceAs (Decidable (b ∈ s.blockIds))
  | .before anchor | .after anchor => inferInstanceAs (Decidable (anchor ∈ s.allInsts))

variable {l : Listing} {i : InstId} {place : Place}

@[simp] theorem blockIds_insert (l : Listing) (i : InstId) (place : Place) :
    (l.insert i place).blockIds = l.blockIds := by
  cases place <;> simp [insert, prepend, append, insertBefore, insertAfter]

theorem mem_allInsts_insert {j : InstId} (listed : j ∈ (l.insert i place).allInsts) : j = i ∨ j ∈ l.allInsts := by
  cases place with
  | top | bottom => exact mem_allInsts_updateBlock (by simp [or_comm]) listed
  | before | after => exact mem_allInsts_updateAll (fun k put => by split at put <;> simp_all [or_comm]) listed

theorem perm_insert (blocks : l.blockIds.Nodup) (nodup : l.allInsts.Nodup) (offered : l.Offers place) :
    (l.insert i place).allInsts.Perm (i :: l.allInsts) := by
  cases place with
  | top block => exact perm_prepend blocks offered
  | bottom block => exact perm_append blocks offered
  | before anchor => exact perm_insertBefore nodup offered
  | after anchor => exact perm_insertAfter nodup offered

end Listing

namespace Func

/-- Each block and each instruction is listed once, and what is listed is an instruction of the graph that
counts as a user of its operands. There may be other instructions, tracked or not. -/
structure Valid (f : Func) : Prop where
  graph : f.graph.Valid
  blocks_nodup : f.listing.blockIds.Nodup
  code_nodup : f.code.Nodup
  code_lt : ∀ i ∈ f.code, i.index < f.graph.insts.size
  used : ∀ i ∈ f.code, ∀ v ∈ f.graph.operands i, i ∈ f.graph.users v

/-- Code uses no results but those of listed instructions. -/
def OperandsDefined (f : Func) : Prop :=
  ∀ i ∈ f.code, ∀ v ∈ f.graph.operands i, ∀ j, f.graph.definition? v = some j → j ∈ f.code

instance (f : Func) : Decidable f.OperandsDefined :=
  inferInstanceAs (Decidable (∀ i ∈ f.code, ∀ v ∈ f.graph.operands i, ∀ j ∈ f.graph.definition? v, j ∈ f.code))

def EndsInTerminators (f : Func) : Prop :=
  ∀ b ∈ f.listing.blocks, ∃ i inst, b.2.getLast? = some i ∧ f.graph.inst? i = some inst ∧ inst.isTerminator

/-- Each phi has a value, and all its values come from blocks that are there. -/
def PhisGrounded (f : Func) : Prop :=
  ∀ i ∈ f.code, ∀ incoming ty, f.graph.inst? i = some (.phi incoming ty) →
    incoming ≠ [] ∧ ∀ e ∈ incoming, e.2 ∈ f.listing.blockIds

/-- A value that is there and, if `closed` holds, no result but of a listed instruction. -/
structure Usable (closed : Prop) (f : Func) (v : ValueId) : Prop where
  lt : v.index < f.graph.values.size
  defined : closed → ∀ i, f.graph.definition? v = some i → i ∈ f.code

variable {f : Func}

instance (f : Func) : Decidable f.Valid :=
  decidable_of_iff (f.graph.Valid ∧ f.listing.blockIds.Nodup ∧ f.code.Nodup ∧
      (∀ i ∈ f.code, i.index < f.graph.insts.size) ∧
      ∀ i ∈ f.code, ∀ v ∈ f.graph.operands i, i ∈ f.graph.users v)
    ⟨fun ⟨graph, blocks, code, inside, used⟩ => ⟨graph, blocks, code, inside, used⟩,
      fun valid => ⟨valid.graph, valid.blocks_nodup, valid.code_nodup, valid.code_lt, valid.used⟩⟩

theorem insert_eq (f : Func) (inst : Inst) (ty : Ty) (place : Place) :
    f.insert inst ty place =
      ({ f with
          graph := f.graph.emit inst ty
          listing := f.listing.insert f.graph.nextInst place }, f.graph.nextValue) := by
  have values := congrArg Graph.values (Graph.addInst_eq f.graph inst).1
  refine Prod.ext rfl (ValueId.ext ?_)
  change (f.graph.addInst inst).1.values.size = _
  rw [values]
  rfl

@[simp] theorem graph_insert (f : Func) (inst : Inst) (ty : Ty) (place : Place) :
    (f.insert inst ty place).1.graph = f.graph.emit inst ty := by
  rw [insert_eq]

@[simp] theorem listing_insert (f : Func) (inst : Inst) (ty : Ty) (place : Place) :
    (f.insert inst ty place).1.listing = f.listing.insert f.graph.nextInst place := by
  rw [insert_eq]

@[simp] theorem value_insert (f : Func) (inst : Inst) (ty : Ty) (place : Place) :
    (f.insert inst ty place).2 = f.graph.nextValue := by
  rw [insert_eq]

theorem mem_code_remove {i j : InstId} : j ∈ (f.remove i).code ↔ j ∈ f.code ∧ j ≠ i := by
  change j ∈ (f.listing.remove i).allInsts ↔ _
  simp [Listing.allInsts_remove, code]

theorem mem_code_of_block {b : BlockId × List InstId} {i : InstId} (block : b ∈ f.listing.blocks)
    (inside : i ∈ b.2) : i ∈ f.code :=
  List.mem_flatMap.mpr ⟨b, block, inside⟩

theorem mem_code_of_insts {i : InstId} {block : BlockId} (inside : i ∈ f.listing.insts block) : i ∈ f.code :=
  mem_code_of_block (Listing.mem_blocks_of_insts rfl (List.ne_nil_of_mem inside)) inside

theorem exists_inst (valid : f.Valid) {i : InstId} (listed : i ∈ f.code) :
    ∃ inst, f.graph.inst? i = some inst :=
  Graph.exists_inst (valid.code_lt i listed)

theorem Valid.operand_lt (valid : f.Valid) {i : InstId} {v : ValueId} (listed : i ∈ f.code)
    (operand : v ∈ f.graph.operands i) : v.index < f.graph.values.size :=
  valid.graph.value_lt (valid.used i listed v operand)

theorem Valid.nextInst_not_listed (valid : f.Valid) : f.graph.nextInst ∉ f.code :=
  fun listed => Nat.lt_irrefl _ (valid.code_lt _ listed)

theorem Valid.insert (valid : f.Valid) {inst : Inst} {ty : Ty} {place : Place}
    (operands : ∀ v ∈ inst.operands, v.index < f.graph.values.size)
    (blocks : (f.listing.insert f.graph.nextInst place).blockIds = f.listing.blockIds)
    (perm : (f.listing.insert f.graph.nextInst place).allInsts.Perm (f.graph.nextInst :: f.code)) :
    (f.insert inst ty place).1.Valid := by
  rw [insert_eq]
  have listed (i : InstId) : i ∈ (f.listing.insert f.graph.nextInst place).allInsts ↔
      i = f.graph.nextInst ∨ i ∈ f.code := perm.mem_iff.trans List.mem_cons
  refine ⟨valid.graph.emit inst ty, blocks ▸ valid.blocks_nodup, ?_, fun i inside => ?_,
    fun i inside v operand => ?_⟩
  · exact perm.nodup_iff.mpr (List.nodup_cons.mpr ⟨valid.nextInst_not_listed, valid.code_nodup⟩)
  · rw [Graph.size_insts_emit]
    rcases (listed i).mp inside with rfl | before
    · exact Nat.lt_succ_self _
    · exact Nat.lt_succ_of_lt (valid.code_lt i before)
  · rw [Graph.mem_users_emit]
    obtain ⟨other, found, operand⟩ := Graph.mem_operands.mp operand
    rw [Graph.inst?_emit] at found
    split at found
    next new =>
      cases found
      exact .inr ⟨new, operand, valid.graph.size_userLists ▸ operands v operand⟩
    next old =>
      have before := ((listed i).mp inside).resolve_left old
      exact .inl (valid.used i before v (Graph.mem_operands.mpr ⟨other, found, operand⟩))

theorem Valid.insertInst (valid : f.Valid) {inst : Inst} {place : Place}
    (operands : ∀ v ∈ inst.operands, v.index < f.graph.values.size)
    (blocks : (f.listing.insert f.graph.nextInst place).blockIds = f.listing.blockIds)
    (perm : (f.listing.insert f.graph.nextInst place).allInsts.Perm (f.graph.nextInst :: f.code)) :
    (f.insertInst inst place).1.Valid := by
  have listed (i : InstId) : i ∈ (f.listing.insert f.graph.nextInst place).allInsts ↔
      i = f.graph.nextInst ∨ i ∈ f.code := perm.mem_iff.trans List.mem_cons
  have size : (f.graph.addInst inst).1.insts.size = f.graph.insts.size + 1 := by
    rw [congrArg Graph.insts (Graph.addInst_eq f.graph inst).1, Array.size_push]
  refine ⟨valid.graph.addInst inst, blocks ▸ valid.blocks_nodup, ?nodup, fun i inside => ?lt, fun i inside v operand => ?used⟩
  case nodup => exact perm.nodup_iff.mpr (List.nodup_cons.mpr ⟨valid.nextInst_not_listed, valid.code_nodup⟩)
  case lt =>
    change i.index < (f.graph.addInst inst).1.insts.size
    rw [size]
    rcases (listed i).mp inside with rfl | before
    · exact Nat.lt_succ_self _
    · exact Nat.lt_succ_of_lt (valid.code_lt i before)
  case used =>
    change i ∈ (f.graph.addInst inst).1.users v
    rw [Graph.mem_users_addInst]
    obtain ⟨other, found, operand⟩ := Graph.mem_operands.mp operand
    change (f.graph.addInst inst).1.inst? i = some other at found
    rw [Graph.inst?_addInst] at found
    split at found
    next new =>
      cases found
      exact .inr ⟨new, operand, valid.graph.size_userLists ▸ operands v operand⟩
    next old =>
      have before := ((listed i).mp inside).resolve_left old
      exact .inl (valid.used i before v (Graph.mem_operands.mpr ⟨other, found, operand⟩))

theorem Valid.addImm (valid : f.Valid) (i : Imm) : (f.addImm i).1.Valid := by
  refine ⟨valid.graph.addImm i, valid.blocks_nodup, valid.code_nodup, fun j listed => ?_,
    fun j listed v operand => ?_⟩
  · change j.index < (f.graph.addImm i).1.insts.size
    rw [Graph.insts_addImm]
    exact valid.code_lt j listed
  · change j ∈ (f.graph.addImm i).1.users v
    rw [Graph.users_addImm]
    refine valid.used j listed v ?_
    rwa [Graph.operands, Func.addImm, Graph.inst?_addImm] at operand

theorem Valid.remove (valid : f.Valid) (i : InstId) : (f.remove i).Valid := by
  refine ⟨valid.graph.untrack i, ?_, ?_, fun j inside => ?_, fun j inside v operand => ?_⟩
  · exact (Listing.blockIds_updateAll f.listing _) ▸ valid.blocks_nodup
  · change (f.listing.remove i).allInsts.Nodup
    rw [Listing.allInsts_remove]
    exact valid.code_nodup.filter _
  · change j.index < (f.graph.untrack i).insts.size
    rw [congrArg Graph.insts (Graph.untrack_eq f.graph i).1]
    exact valid.code_lt j (mem_code_remove.mp inside).1
  · obtain ⟨before, other⟩ := mem_code_remove.mp inside
    change j ∈ (f.graph.untrack i).users v
    rw [valid.graph.mem_users_untrack]
    refine ⟨valid.used j before v ?_, other⟩
    rwa [← Graph.operands_untrack f.graph i j]

theorem Valid.replaceUses (valid : f.Valid) (old : ValueId) {new : ValueId}
    (inside : new.index < f.graph.values.size) : (f.updateGraph (·.replaceUses old new)).Valid where
  graph := valid.graph.replaceUses old inside
  blocks_nodup := valid.blocks_nodup
  code_nodup := valid.code_nodup
  code_lt i listed := by
    change i.index < (f.graph.replaceUses old new).insts.size
    rw [(Graph.replaceUses_eq f.graph old new).2.2]
    exact valid.code_lt i listed
  used i listed v operand := by
    change i ∈ (f.graph.replaceUses old new).users v
    rw [Graph.mem_users_replaceUses f.graph (valid.graph.size_userLists ▸ inside)]
    refine ((Graph.mem_operands_replaceUses valid.graph).mp operand).imp_left ?_
    rintro ⟨before, differ⟩
    have user := valid.used i listed v before
    refine ⟨user, ?_⟩
    rintro rfl
    exact differ user rfl

theorem inst?_replaceUses_of_listed (valid : f.Valid) {i : InstId} (listed : i ∈ f.code) (old new : ValueId) :
    (f.graph.replaceUses old new).inst? i = (f.graph.inst? i).map (·.replace old new) := by
  rw [Graph.inst?_replaceUses]
  split
  next => rfl
  next other =>
    obtain ⟨inst, found⟩ := exists_inst valid listed
    have absent : old ∉ inst.operands := fun operand =>
      other (valid.used i listed old (Graph.mem_operands.mpr ⟨inst, found, operand⟩))
    simp [found, Inst.replace_of_not_mem absent]

end Func

end VarRecovery
