import VarRecovery.Proofs.Code.Extension
import VarRecovery.Proofs.Code.Func

/-!
Code that takes the place of an instruction: it is written in front of it, one instruction after another, and then the
instruction is taken out. All else is listed as it was.
-/

set_option autoImplicit false

namespace VarRecovery

namespace Listing

variable {l : Listing} {i anchor : InstId} {news : List InstId}

def put (l : Listing) (anchor : InstId) (news : List InstId) : Listing :=
  l.updateAll fun i => if i = anchor then news ++ [i] else [i]

def swap (l : Listing) (anchor : InstId) (news : List InstId) : Listing :=
  l.updateAll fun i => if i = anchor then news else [i]

theorem updateAll_updateAll (l : Listing) (f g : InstId → List InstId) :
    (l.updateAll f).updateAll g = l.updateAll fun i => (f i).flatMap g := by
  simp [updateAll, List.flatMap_assoc]

theorem put_nil (l : Listing) (anchor : InstId) : l.put anchor [] = l := by
  simp [put, updateAll]

/-- What is put in the place of an instruction next goes behind what was put in front of it. -/
theorem updateAll_put {f : InstId → List InstId} (still : ∀ j, j ≠ anchor → f j = [j]) (absent : anchor ∉ news) :
    (l.put anchor news).updateAll f = l.updateAll fun i => if i = anchor then news ++ f anchor else [i] := by
  rw [put, updateAll_updateAll]
  congr 1
  funext i
  split
  next here =>
    subst here
    rw [List.flatMap_append, flatMap_of_not_mem still absent, List.flatMap_singleton]
  next other => rw [List.flatMap_singleton, still i other]

theorem put_put (absent : anchor ∉ news) (others : List InstId) :
    (l.put anchor news).put anchor others = l.put anchor (news ++ others) := by
  refine (updateAll_put (fun j other => if_neg other) absent).trans ?_
  rw [if_pos rfl, put]
  congr 1
  funext i
  split
  next here => rw [here, List.append_assoc]
  next => rfl

theorem remove_put (absent : anchor ∉ news) : (l.put anchor news).remove anchor = l.swap anchor news := by
  refine (updateAll_put (fun j other => if_neg other) absent).trans ?_
  rw [if_pos rfl, List.append_nil, swap]

end Listing

namespace Graph

variable {g : Graph} {v old new : ValueId} {i : InstId} {inst : Inst} {ty : Ty}

/-- A value and the instruction that makes it. -/
structure Defines (g : Graph) (v : ValueId) (i : InstId) (inst : Inst) (ty : Ty) : Prop where
  value : g.value? v = some (.result i ty)
  inst : g.inst? i = some inst

theorem Defines.definition? (defines : g.Defines v i inst ty) : g.definition? v = some i := by
  rw [Graph.definition?, defines.value]

theorem Defines.ty_eq (defines : g.Defines v i inst ty) : g.ty v = ty := by
  rw [Graph.ty, defines.value]
  rfl

theorem defines_emit (g : Graph) (inst : Inst) (ty : Ty) : (g.emit inst ty).Defines g.nextValue g.nextInst inst ty :=
  ⟨by rw [value?_emit, if_pos rfl], by rw [inst?_emit, if_pos rfl]⟩

/-- What does not use a value stays when its uses become those of another. -/
theorem inst?_replaceUses_of_not_mem (valid : g.Valid) (found : g.inst? i = some inst) (absent : old ∉ inst.operands)
    (new : ValueId) : (g.replaceUses old new).inst? i = some inst := by
  rw [inst?_replaceUses, if_neg, found]
  intro user
  obtain ⟨other, same, operand⟩ := mem_operands.mp (valid.uses old i user)
  cases found.symm.trans same
  exact absent operand

theorem Defines.replaceUses (defines : g.Defines v i inst ty) (valid : g.Valid) (absent : old ∉ inst.operands)
    (new : ValueId) : (g.replaceUses old new).Defines v i inst ty :=
  ⟨(value?_replaceUses ..).trans defines.value, inst?_replaceUses_of_not_mem valid defines.inst absent new⟩

theorem Defines.untrack (defines : g.Defines v i inst ty) (j : InstId) : (g.untrack j).Defines v i inst ty :=
  ⟨(value?_untrack ..).trans defines.value, (inst?_untrack ..).trans defines.inst⟩

end Graph

namespace Func

variable {f g h : Func} {anchor : InstId} {news others : List InstId} {v : ValueId} {i : InstId} {inst : Inst} {ty : Ty}

/-- Code was written in front of an instruction, and nothing else was changed. -/
structure Puts (anchor : InstId) (news : List InstId) (f g : Func) : Prop where
  listing : g.listing = f.listing.put anchor news
  valid : g.graph.Valid
  size : f.graph.insts.size ≤ g.graph.insts.size
  fresh : ∀ i ∈ news, f.graph.insts.size ≤ i.index
  value : ∀ v val, f.graph.value? v = some val → g.graph.value? v = some val
  inst : ∀ i inst, f.graph.inst? i = some inst → g.graph.inst? i = some inst
  result : ∀ i, i.index < f.graph.insts.size → g.graph.result? i = f.graph.result? i

theorem Puts.absent (puts : Puts anchor news f g) (old : anchor.index < f.graph.insts.size) : anchor ∉ news :=
  fun member => Nat.lt_irrefl _ (Nat.lt_of_lt_of_le old (puts.fresh anchor member))

theorem Puts.defines (puts : Puts anchor news f g) (defines : f.graph.Defines v i inst ty) :
    g.graph.Defines v i inst ty :=
  ⟨puts.value _ _ defines.value, puts.inst _ _ defines.inst⟩

theorem Puts.refl (valid : f.graph.Valid) (anchor : InstId) : Puts anchor [] f f :=
  ⟨(f.listing.put_nil anchor).symm, valid, Nat.le_refl _, nofun, fun _ _ found => found, fun _ _ found => found,
    fun _ _ => rfl⟩

theorem Puts.trans (old : anchor.index < f.graph.insts.size) (first : Puts anchor news f g)
    (second : Puts anchor others g h) : Puts anchor (news ++ others) f h where
  listing := by rw [second.listing, first.listing, Listing.put_put (first.absent old)]
  valid := second.valid
  size := Nat.le_trans first.size second.size
  fresh i member := by
    rcases List.mem_append.mp member with before | behind
    · exact first.fresh i before
    · exact Nat.le_trans first.size (second.fresh i behind)
  value v val found := second.value v val (first.value v val found)
  inst i inst found := second.inst i inst (first.inst i inst found)
  result i inside := (second.result i (Nat.lt_of_lt_of_le inside first.size)).trans (first.result i inside)

theorem puts_addImm (valid : f.graph.Valid) (anchor : InstId) (i : Imm) : Puts anchor [] f (f.addImm i).1 := by
  have grown := Graph.Extends.addImm f.graph i
  have insts : (f.addImm i).1.graph.insts = f.graph.insts := Graph.insts_addImm f.graph i
  refine ⟨(f.listing.put_nil anchor).symm, valid.addImm i, Nat.le_of_eq (congrArg Array.size insts.symm), nofun, grown.value,
    fun j inst found => ?_,
    grown.result⟩
  rwa [Graph.inst?, insts]

theorem puts_insertInst (valid : f.graph.Valid) (anchor : InstId) (inst : Inst) :
    Puts anchor [f.graph.nextInst] f (f.insertInst inst (.before anchor)).1 where
  listing := rfl
  valid := valid.addInst inst
  size := by
    change _ ≤ (f.graph.addInst inst).1.insts.size
    rw [congrArg Graph.insts (Graph.addInst_eq f.graph inst).1, Array.size_push]
    exact Nat.le_succ _
  fresh := List.forall_mem_singleton.mpr (Nat.le_refl _)
  value v val found := (Graph.value?_addInst f.graph inst v).trans found
  inst i other found := by
    have old : i ≠ f.graph.nextInst := fun same => Nat.lt_irrefl _ (same ▸ Graph.inst?_lt found)
    exact (Graph.inst?_addInst f.graph inst i).trans ((if_neg old).trans found)
  result i _ := Graph.result?_addInst f.graph inst i

theorem puts_insert (valid : f.graph.Valid) (anchor : InstId) (inst : Inst) (ty : Ty) :
    Puts anchor [f.graph.nextInst] f (f.insert inst ty (.before anchor)).1 ∧
      (f.insert inst ty (.before anchor)).1.graph.Defines f.graph.nextValue f.graph.nextInst inst ty := by
  rw [insert_eq]
  have grown := Graph.Extends.emit valid inst ty
  refine ⟨⟨rfl, valid.emit inst ty, ?_, List.forall_mem_singleton.mpr (Nat.le_refl _), grown.value, fun i other found => ?_,
    grown.result⟩, Graph.defines_emit f.graph inst ty⟩
  · rw [Graph.size_insts_emit]
    exact Nat.le_succ _
  · exact Graph.inst?_emit_of_some found inst ty

end Func

end VarRecovery
