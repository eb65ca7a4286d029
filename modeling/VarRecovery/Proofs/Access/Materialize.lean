import VarRecovery.Access.Collect
import VarRecovery.Proofs.Code.Closed

/-!
Materialized expressions are written in front of listed instructions, so what is tracked stays what is listed.
-/

set_option autoImplicit false

namespace VarRecovery

theorem Inst.mem_operands_withOperands {inst : Inst} {vs : List ValueId} {v : ValueId}
    (operand : v ∈ (inst.withOperands vs).operands) : v ∈ vs ∨ v ∈ inst.operands := by
  unfold withOperands at operand
  split at operand
  case h_10 incoming ty =>
    obtain ⟨e, member, rfl⟩ := List.mem_map.mp operand
    exact .inl (List.of_mem_zip member).1
  case h_11 => exact .inr operand
  all_goals exact .inl (by simpa [operands] using operand)

namespace Func

variable {closed : Prop} {f : Func} {i anchor : InstId} {v : ValueId}

theorem materializeValue_rewritten (tracked : f.Tracked) (closes : closed → f.Closed) (depth : Nat)
    (usable : f.Usable closed v) (listed : anchor ∈ f.code) :
    Rewritten closed f (materializeValue depth f v anchor).1 ∧
      (materializeValue depth f v anchor).1.Usable closed (materializeValue depth f v anchor).2 := by
  induction depth generalizing f v with
  | zero => exact ⟨.refl tracked closes, usable⟩
  | succ depth ih =>
    unfold materializeValue
    split
    -- What an expression is made of may be written out too, in front of it.
    next op arg ty found =>
      have inside : f.Usable closed arg := tracked.usable_expr closes found (List.mem_singleton_self arg)
      obtain ⟨first, usable₁⟩ := ih tracked closes inside listed
      generalize materializeValue depth f arg anchor = written at first usable₁
      obtain ⟨f₁, arg₁⟩ := written
      obtain ⟨last, value⟩ := first.revision.tracked.writeBefore first.closes (first.revision.still listed)
        (.cast op arg₁ ty) ty (List.forall_mem_singleton.mpr usable₁)
      exact ⟨first.trans last, value⟩
    next op lhs rhs ty found =>
      have inside (w : ValueId) (operand : w ∈ [lhs, rhs]) : f.Usable closed w :=
        tracked.usable_expr closes found operand
      obtain ⟨first, usable₁⟩ := ih tracked closes (inside lhs (by simp)) listed
      generalize materializeValue depth f lhs anchor = left at first usable₁
      obtain ⟨f₁, lhs₁⟩ := left
      have listed₁ := first.revision.still listed
      obtain ⟨second, usable₂⟩ :=
        ih first.revision.tracked first.closes ((inside rhs (by simp)).revise first.revision) listed₁
      dsimp only
      generalize materializeValue depth f₁ rhs anchor = right at second usable₂
      obtain ⟨f₂, rhs₁⟩ := right
      obtain ⟨last, value⟩ := second.revision.tracked.writeBefore second.closes (second.revision.still listed₁)
        (.binary op lhs₁ rhs₁) ty
        (List.forall_mem_cons.mpr ⟨usable₁.revise second.revision, List.forall_mem_singleton.mpr usable₂⟩)
      exact ⟨(first.trans second).trans last, value⟩
    next => exact ⟨.refl tracked closes, usable⟩

theorem materializeOperands_rewritten (tracked : f.Tracked) (closes : closed → f.Closed) (depth : Nat)
    (uses : List (ValueId × Option InstId)) (usable : ∀ u ∈ uses, f.Usable closed u.1)
    (listed : ∀ u ∈ uses, ∀ anchor, u.2 = some anchor → anchor ∈ f.code) :
    Rewritten closed f (materializeOperands depth f uses).1 ∧
      ∀ w ∈ (materializeOperands depth f uses).2, (materializeOperands depth f uses).1.Usable closed w := by
  induction uses generalizing f with
  | nil => exact ⟨.refl tracked closes, nofun⟩
  | cons u rest ih =>
    obtain ⟨v, anchor⟩ := u
    obtain ⟨here, usableRest⟩ := List.forall_mem_cons.mp usable
    obtain ⟨place, listedRest⟩ := List.forall_mem_cons.mp listed
    unfold materializeOperands
    cases anchor with
    | none =>
      obtain ⟨others, values⟩ := ih tracked closes usableRest listedRest
      exact ⟨others, List.forall_mem_cons.mpr ⟨here.revise others.revision, values⟩⟩
    | some anchor =>
      obtain ⟨first, value⟩ := materializeValue_rewritten tracked closes depth here (place anchor rfl)
      dsimp only
      generalize materializeValue depth f v anchor = written at first value
      obtain ⟨f₁, w⟩ := written
      obtain ⟨others, values⟩ := ih first.revision.tracked first.closes
        (fun u member => (usableRest u member).revise first.revision)
        fun u member anchor at_ => first.revision.still (listedRest u member anchor at_)
      exact ⟨first.trans others, List.forall_mem_cons.mpr ⟨value.revise others.revision, values⟩⟩

theorem mem_anchors {inst : Inst} {u : ValueId × Option InstId} (listed : i ∈ f.code) (member : u ∈ f.anchors i inst) :
    u.1 ∈ inst.operands ∧ ∀ anchor, u.2 = some anchor → anchor ∈ f.code := by
  unfold anchors at member
  split at member
  next incoming ty =>
    obtain ⟨e, inside, rfl⟩ := List.mem_map.mp member
    exact ⟨List.mem_map.mpr ⟨e, inside, rfl⟩, fun anchor last => mem_code_of_insts (List.mem_of_getLast? last)⟩
  next =>
    obtain ⟨v, inside, rfl⟩ := List.mem_map.mp member
    refine ⟨inside, ?_⟩
    rintro _ ⟨⟩
    exact listed

theorem materializeInst_rewritten (tracked : f.Tracked) (closes : closed → f.Closed) (listed : i ∈ f.code) :
    Rewritten closed f (f.materializeInst i) := by
  unfold materializeInst
  split
  next => exact .refl tracked closes
  next inst found =>
    have usable (v : ValueId) (operand : v ∈ inst.operands) : f.Usable closed v :=
      tracked.usable closes listed (Graph.mem_operands.mpr ⟨inst, found, operand⟩)
    split
    next =>
      obtain ⟨written, values⟩ := materializeOperands_rewritten tracked closes f.graph.values.size (f.anchors i inst)
        (fun u member => usable _ (mem_anchors listed member).1) fun u member => (mem_anchors listed member).2
      dsimp only
      generalize materializeOperands f.graph.values.size f (f.anchors i inst) = made at written values
      obtain ⟨f₁, vs⟩ := made
      have still := written.revision.still listed
      refine written.trans (written.revision.tracked.rewrite written.closes still fun v operand => ?_)
      exact (Inst.mem_operands_withOperands operand).elim (values v) fun old => (usable v old).revise written.revision
    next => exact .refl tracked closes

theorem materialize_rewritten (tracked : f.Tracked) (closes : closed → f.Closed) :
    Rewritten closed f f.materialize := by
  have whole (is : List InstId) (g : Func) (so_far : Rewritten closed f g) (inside : ∀ i ∈ is, i ∈ f.code) :
      Rewritten closed f (is.foldl materializeInst g) := by
    induction is generalizing g with
    | nil => exact so_far
    | cons i is ih =>
      obtain ⟨here, rest⟩ := List.forall_mem_cons.mp inside
      have listed := so_far.revision.still here
      exact ih _ (so_far.trans (materializeInst_rewritten so_far.revision.tracked so_far.closes listed)) rest
  exact whole f.code f (.refl tracked closes) fun i listed => listed

end Func

namespace Module

variable {m : Module} {closed : Prop}

theorem updateFunc_materialize_rewritten (tracked : m.Tracked) (closes : closed → m.Closed) (id : FuncId) :
    m.Revision (m.updateFunc id Func.materialize) ∧ (closed → (m.updateFunc id Func.materialize).Closed) := by
  cases found : m.func? id with
  | none =>
    rw [updateFunc_congr (fun f => f) (by simp [found]), updateFunc_id]
    exact ⟨.refl tracked, closes⟩
  | some f =>
    have written := Func.materialize_rewritten (tracked id f found) fun restricted => closes restricted id f found
    rw [updateFunc_congr (fun _ => f.materialize) (by simp [found])]
    refine ⟨.updateFunc tracked found written.revision, fun restricted j g known => ?_⟩
    rw [func?_updateFunc] at known
    split at known
    next =>
      obtain ⟨-, -, rfl⟩ := Option.map_eq_some_iff.mp known
      exact written.closes restricted
    next => exact closes restricted j g known

theorem materialize_rewritten (tracked : m.Tracked) (closes : closed → m.Closed) :
    m.Revision m.materialize ∧ (closed → m.materialize.Closed) := by
  have whole (ids : List FuncId) (n : Module) (so_far : m.Revision n) (closes : closed → n.Closed) :
      m.Revision (ids.foldl (fun m f => m.updateFunc f Func.materialize) n) ∧
        (closed → (ids.foldl (fun m f => m.updateFunc f Func.materialize) n).Closed) := by
    induction ids generalizing n with
    | nil => exact ⟨so_far, closes⟩
    | cons id ids ih =>
      obtain ⟨revision, closed⟩ := updateFunc_materialize_rewritten so_far.tracked closes id
      exact ih _ (so_far.trans revision) closed
  exact whole m.definedFuncs m (.refl tracked) closes

end Module

end VarRecovery
