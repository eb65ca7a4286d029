import VarRecovery.Proofs.Code.Revision

/-!
Closed code: neither it nor a constant expression uses a result but of a listed instruction. What is written with
usable operands keeps it so.
-/

set_option autoImplicit false

namespace VarRecovery

namespace Func

/-- Constant expressions use no results but those of listed instructions. -/
def ExprsDefined (f : Func) : Prop :=
  ∀ v val, f.graph.value? v = some val → ∀ w ∈ val.operands, ∀ i, f.graph.definition? w = some i → i ∈ f.code

instance (f : Func) : Decidable f.ExprsDefined :=
  decidable_of_iff (∀ n < f.graph.values.size, ∀ val ∈ f.graph.value? ⟨n⟩, ∀ w ∈ val.operands,
      ∀ i ∈ f.graph.definition? w, i ∈ f.code)
    ⟨fun defined v val found => defined v.index (Graph.value?_lt found) val found,
      fun defined n _ val found => defined ⟨n⟩ val found⟩

structure Closed (f : Func) : Prop where
  code : f.OperandsDefined
  exprs : f.ExprsDefined

instance (f : Func) : Decidable f.Closed :=
  decidable_of_iff (f.OperandsDefined ∧ f.ExprsDefined)
    ⟨fun ⟨code, exprs⟩ => ⟨code, exprs⟩, fun closed => ⟨closed.code, closed.exprs⟩⟩

/-- Code was written and changed, and what it uses is defined if `closed` holds. -/
structure Rewritten (closed : Prop) (f g : Func) : Prop where
  revision : Revision [] f g
  closes : closed → g.Closed

variable {closed : Prop} {f g h : Func} {i anchor : InstId} {inst : Inst} {v w : ValueId}

theorem Tracked.usable (tracked : f.Tracked) (closes : closed → f.Closed) (listed : i ∈ f.code)
    (operand : v ∈ f.graph.operands i) : f.Usable closed v :=
  ⟨tracked.known operand, fun restricted => (closes restricted).code i listed v operand⟩

theorem Tracked.usable_expr (tracked : f.Tracked) (closes : closed → f.Closed) {val : Value}
    (found : f.graph.value? v = some val) (operand : w ∈ val.operands) : f.Usable closed w :=
  ⟨tracked.exact.exprs v val found w operand, fun restricted => (closes restricted).exprs v val found w operand⟩

theorem Usable.revise (usable : f.Usable closed v) (revision : Revision [] f g) : g.Usable closed v where
  lt := revision.known v usable.lt
  defined restricted i made := by
    rw [revision.definition v usable.lt] at made
    exact revision.still (usable.defined restricted i made)

theorem Rewritten.refl (tracked : f.Tracked) (closes : closed → f.Closed) : Rewritten closed f f :=
  ⟨.refl tracked, closes⟩

theorem Rewritten.trans (first : Rewritten closed f g) (second : Rewritten closed g h) : Rewritten closed f h :=
  ⟨first.revision.trans second.revision, second.closes⟩

/-- Operands and expressions that are not new stay defined. -/
theorem Closed.revise (closed : f.Closed) (tracked : f.Tracked) (revision : Revision [] f g)
    (operands : ∀ i ∈ g.code, ∀ v ∈ g.graph.operands i, (i ∈ f.code ∧ v ∈ f.graph.operands i) ∨ f.Usable True v)
    (exprs : ∀ v val, g.graph.value? v = some val → f.graph.value? v = some val ∨ val.operands = []) : g.Closed where
  code i listed v operand := by
    have usable : f.Usable True v :=
      (operands i listed v operand).elim (fun old => tracked.usable (fun _ => closed) old.1 old.2) id
    exact (usable.revise revision).defined trivial
  exprs v val found w operand := by
    rcases exprs v val found with old | plain
    · have usable : f.Usable True w := tracked.usable_expr (fun _ => closed) old operand
      exact (usable.revise revision).defined trivial
    · rw [plain] at operand
      cases operand

theorem Tracked.writeBefore (tracked : f.Tracked) (closes : closed → f.Closed) (listed : anchor ∈ f.code) (inst : Inst)
    (ty : Ty) (usable : ∀ v ∈ inst.operands, f.Usable closed v) :
    Rewritten closed f (f.insert inst ty (.before anchor)).1 ∧
      (f.insert inst ty (.before anchor)).1.Usable closed (f.insert inst ty (.before anchor)).2 := by
  obtain ⟨revision, there⟩ := tracked.insertBefore listed inst ty fun v operand => (usable v operand).lt
  have offered : f.listing.Offers (.before anchor) := listed
  have code (i : InstId) : i ∈ (f.insert inst ty (.before anchor)).1.code ↔ i = f.graph.nextInst ∨ i ∈ f.code :=
    tracked.mem_code_insertInst offered inst i
  refine ⟨⟨revision, fun restricted => (closes restricted).revise tracked revision ?operands ?exprs⟩, there, ?defined⟩
  case operands =>
    intro i inside v operand
    obtain ⟨other, found, operand⟩ := Graph.mem_operands.mp operand
    rw [graph_insert, Graph.inst?_emit] at found
    split at found
    next =>
      cases found
      exact .inr ⟨(usable v operand).lt, fun _ => (usable v operand).defined restricted⟩
    next old => exact .inl ⟨((code i).mp inside).resolve_left old, Graph.mem_operands.mpr ⟨other, found, operand⟩⟩
  case exprs =>
    intro v val found
    rw [graph_insert, Graph.value?_emit] at found
    split at found
    next => cases found; exact .inr rfl
    next => exact .inl found
  case defined =>
    intro _ i made
    rw [graph_insert, value_insert, Graph.definition?, Graph.value?_emit, if_pos rfl] at made
    cases made
    exact (code _).mpr (.inl rfl)

theorem Tracked.rewrite (tracked : f.Tracked) (closes : closed → f.Closed) (listed : i ∈ f.code)
    (usable : ∀ v ∈ inst.operands, f.Usable closed v) : Rewritten closed f (f.updateGraph (·.setInst i inst)) := by
  have revision := tracked.setInst listed fun v operand => (usable v operand).lt
  refine ⟨revision, fun restricted => (closes restricted).revise tracked revision ?operands ?exprs⟩
  case operands =>
    intro j inside v operand
    change v ∈ (f.graph.setInst i inst).operands j at operand
    rw [Graph.operands_setInst (tracked.valid.code_lt i listed)] at operand
    split at operand
    next => exact .inr ⟨(usable v operand).lt, fun _ => (usable v operand).defined restricted⟩
    next => exact .inl ⟨inside, operand⟩
  case exprs =>
    intro v val found
    rw [Graph.value?, updateGraph, congrArg Graph.values (Graph.setInst_eq f.graph i inst).1] at found
    exact .inl found

end Func

namespace Module

def Closed (m : Module) : Prop :=
  ∀ id f, m.func? id = some f → f.Closed

end Module

end VarRecovery
