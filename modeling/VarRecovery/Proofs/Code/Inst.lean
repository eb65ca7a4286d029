import VarRecovery.Code.Inst

/-!
Instructions with other operands: what kind of instruction one is does not depend on them.
-/

set_option autoImplicit false

namespace VarRecovery.Inst

variable {f g : ValueId → ValueId} {inst : Inst}

theorem mapOperands_congr (same : ∀ v ∈ inst.operands, f v = g v) :
    inst.mapOperands f = inst.mapOperands g := by
  cases inst with
  | leave value => cases value <;> simp_all [mapOperands, operands]
  | phi incoming ty => simpa [mapOperands, operands] using same
  | _ => simp_all [mapOperands, operands]

@[simp] theorem mapOperands_id (inst : Inst) : inst.mapOperands id = inst := by
  cases inst <;> simp [mapOperands]

theorem mapOperands_mapOperands (f g : ValueId → ValueId) (inst : Inst) :
    (inst.mapOperands f).mapOperands g = inst.mapOperands (g ∘ f) := by
  cases inst <;> simp [mapOperands]

theorem mapOperands_of_fixed (fixed : ∀ v ∈ inst.operands, f v = v) : inst.mapOperands f = inst :=
  (mapOperands_congr fixed).trans (mapOperands_id inst)

theorem replace_of_not_mem {old new : ValueId} (absent : old ∉ inst.operands) :
    inst.replace old new = inst := by
  refine mapOperands_of_fixed fun v member => ?_
  rw [if_neg]
  rintro rfl
  exact absent member

theorem mem_operands_replace {old new v : ValueId} :
    v ∈ (inst.replace old new).operands ↔
      (v ∈ inst.operands ∧ v ≠ old) ∨ (v = new ∧ old ∈ inst.operands) := by
  simp only [replace, operands_mapOperands, List.mem_map]
  constructor
  · rintro ⟨w, member, rfl⟩
    by_cases same : w = old
    · simp_all
    · simp_all
  · rintro (⟨member, differ⟩ | ⟨rfl, member⟩)
    · exact ⟨v, member, if_neg differ⟩
    · exact ⟨old, member, if_pos rfl⟩

theorem replace_replace (old new : ValueId) (inst : Inst) :
    (inst.replace old new).replace old new = inst.replace old new := by
  rw [replace, replace, mapOperands_mapOperands]
  refine mapOperands_congr fun v _ => ?_
  by_cases same : v = old <;> simp [same]

@[simp] theorem isTerminator_mapOperands : (inst.mapOperands f).isTerminator = inst.isTerminator := by
  cases inst <;> rfl

@[simp] theorem isPhi_mapOperands : (inst.mapOperands f).isPhi = inst.isPhi := by
  cases inst <;> rfl

def isCall : Inst → Bool
  | .call .. => true
  | _ => false

@[simp] theorem isCall_mapOperands (f : ValueId → ValueId) (inst : Inst) : (inst.mapOperands f).isCall = inst.isCall := by
  cases inst <;> rfl

/-! ### What does not depend on operands -/

/-- What an instruction says but for its operands, of which their number is left. -/
def form (inst : Inst) : Inst :=
  inst.mapOperands fun _ => ⟨0⟩

variable {other : Inst}

@[simp] theorem form_mapOperands (f : ValueId → ValueId) (inst : Inst) : (inst.mapOperands f).form = inst.form :=
  mapOperands_mapOperands f _ inst

theorem isTerminator_of_form (same : other.form = inst.form) : other.isTerminator = inst.isTerminator := by
  have whole := congrArg isTerminator same
  simpa only [form, isTerminator_mapOperands] using whole

theorem phi_of_form {incoming : List (ValueId × BlockId)} {ty : Ty} (same : other.form = (phi incoming ty).form) :
    ∃ values, other = .phi values ty ∧ values.map Prod.snd = incoming.map Prod.snd := by
  cases other with
  | phi values ty' =>
    simp only [form, mapOperands, phi.injEq] at same
    refine ⟨values, by rw [same.2], ?_⟩
    simpa [Function.comp_def] using congrArg (List.map Prod.snd) same.1
  | _ => cases same

theorem call_of_form {callee : FuncId} {args : List ValueId} {ret : Ty} (same : other.form = (call callee args ret).form) :
    ∃ values, other = .call callee values ret ∧ values.length = args.length := by
  cases other with
  | call callee' values ret' =>
    simp only [form, mapOperands, call.injEq] at same
    refine ⟨values, by rw [same.1, same.2.2], ?_⟩
    simpa using congrArg List.length same.2.1
  | _ => cases same

end VarRecovery.Inst
