import VarRecovery.Proofs.Access.Form
import VarRecovery.Proofs.Access.Plain
import VarRecovery.Proofs.Pointer.Frontier

/-!
Formed code, in which each expression has a place to be written out. Where code does not grow when its expressions are
written out, there were none.
-/

set_option autoImplicit false

namespace VarRecovery

namespace Func

/-- Blocks end in terminators, phis have values from blocks that are there, and arguments are values. -/
structure Formed (f : Func) : Prop where
  ends : f.EndsInTerminators
  grounded : f.PhisGrounded
  args : ∀ v ∈ f.args, f.graph.Has v

variable {f g : Func} {i anchor : InstId} {v : ValueId}

theorem has_addArgs (g : Graph) (position : Nat) (tys : List Ty) :
    g.values.size ≤ (addArgs g position tys).1.values.size ∧
      ∀ v ∈ (addArgs g position tys).2, (addArgs g position tys).1.Has v := by
  induction tys generalizing g position with
  | nil => exact ⟨Nat.le_refl _, nofun⟩
  | cons ty tys ih =>
    obtain ⟨more, others⟩ := ih (g.addValue (.arg position ty)).1 (position + 1)
    have pushed : (g.addValue (.arg position ty)).1.values.size = g.values.size + 1 := Array.size_push ..
    refine ⟨Nat.le_trans (by omega) more, List.forall_mem_cons.mpr ⟨?_, others⟩⟩
    exact Nat.lt_of_lt_of_le (by rw [pushed]; exact Nat.lt_succ_self _) more

theorem formed_declare (s : Signature) (names : List (Nat × String)) : (Func.declare s names).Formed :=
  ⟨nofun, nofun, (has_addArgs .empty 0 s.args).2⟩

theorem KeepsForm.formed (keeps : f.KeepsForm g) (formed : f.Formed) : g.Formed where
  ends := keeps.ends formed.ends
  grounded := keeps.grounded formed.grounded
  args v member := Nat.lt_of_lt_of_le (formed.args v (keeps.args ▸ member)) keeps.graph.values

theorem Formed.sound (formed : f.Formed) (tracked : f.Tracked) : f.Sound False True False where
  valid := tracked.valid
  ends := formed.ends
  casts := False.elim
  grounded _ := formed.grounded
  known _ i v _ cast := tracked.exact.operands i v (Graph.mem_operands.mpr ⟨_, cast, List.mem_singleton_self v⟩)
  phisFirst := False.elim
  defined := False.elim
  listed := False.elim
  sums := False.elim

/-! ### Code that is written out -/

theorem lt_size_materializeValue (depth : Nat) (isExpr : f.isExpr v) (anchor : InstId) :
    f.graph.insts.size < (materializeValue (depth + 1) f v anchor).1.graph.insts.size := by
  unfold materializeValue
  unfold Func.isExpr at isExpr
  split
  next op arg ty _ =>
    have before := (keepsForm_materializeValue depth f arg anchor).graph.size
    dsimp only
    rw [graph_insert, Graph.size_insts_emit]
    omega
  next op lhs rhs ty _ =>
    have first := (keepsForm_materializeValue depth f lhs anchor).graph.size
    have second := (keepsForm_materializeValue depth (materializeValue depth f lhs anchor).1 rhs anchor).graph.size
    dsimp only
    rw [graph_insert, Graph.size_insts_emit]
    omega
  next noCast noSum =>
    split at isExpr
    next e ty found =>
      cases e with
      | cast op arg => exact absurd found (noCast op arg ty)
      | binary op lhs rhs => exact absurd found (noSum op lhs rhs ty)
    next => cases isExpr

theorem lt_size_materializeOperands (depth : Nat) {uses : List (ValueId × Option InstId)}
    (member : (v, some anchor) ∈ uses) (isExpr : f.isExpr v) :
    f.graph.insts.size < (materializeOperands (depth + 1) f uses).1.graph.insts.size := by
  induction uses with
  | nil => cases member
  | cons u rest ih =>
    obtain ⟨w, place⟩ := u
    have more (g : Func) : g.graph.insts.size ≤ (materializeOperands (depth + 1) g rest).1.graph.insts.size :=
      (keepsForm_materializeOperands (depth + 1) g rest).1.graph.size
    unfold materializeOperands
    dsimp only
    cases place with
    | none =>
      rcases List.mem_cons.mp member with here | later
      · cases here
      · exact ih later
    | some there =>
      -- An expression in front grows the code already; a plain operand changes nothing, so the search goes on.
      cases plain : f.isExpr w with
      | true => exact Nat.lt_of_lt_of_le (lt_size_materializeValue depth plain there) (more _)
      | false =>
        rcases List.mem_cons.mp member with here | later
        · cases here
          cases plain.symm.trans isExpr
        · dsimp only
          rw [materializeValue_of_not_isExpr plain]
          exact ih later

theorem EndsInTerminators.exists_last (ends : f.EndsInTerminators) {block : BlockId} (there : block ∈ f.listing.blockIds) :
    ∃ last, f.listing.last? block = some last := by
  obtain ⟨last, -, ending, -⟩ := ends _ (Listing.exists_block_of_mem_blockIds there)
  exact ⟨last, ending⟩

/-- Every operand of listed code that is a constant expression is written out somewhere. -/
theorem exists_anchor (formed : f.Formed) (listed : i ∈ f.code) {inst : Inst} (found : f.graph.inst? i = some inst)
    (operand : v ∈ inst.operands) : ∃ anchor, (v, some anchor) ∈ f.anchors i inst := by
  cases inst with
  | phi incoming ty =>
    obtain ⟨e, member, rfl⟩ := List.mem_map.mp operand
    obtain ⟨last, ending⟩ := formed.ends.exists_last ((formed.grounded i listed incoming ty found).2 e member)
    exact ⟨last, List.mem_map.mpr ⟨e, member, Prod.ext rfl ending⟩⟩
  | _ => exact ⟨i, List.mem_map_of_mem operand⟩

theorem materializeInst_cases (formed : f.Formed) (listed : i ∈ f.code) :
    f.materializeInst i = f ∨ f.graph.insts.size < (f.materializeInst i).graph.insts.size := by
  unfold materializeInst
  split
  next => exact .inl rfl
  next inst found =>
    split
    next some_ =>
      obtain ⟨v, operand, isExpr⟩ := List.any_eq_true.mp some_
      obtain ⟨anchor, member⟩ := exists_anchor formed listed found operand
      have there : v.index < f.graph.values.size := by
        unfold Func.isExpr at isExpr
        split at isExpr
        next found => exact Graph.value?_lt found
        next => cases isExpr
      -- The depth of the search is the number of values, and there is one.
      obtain ⟨depth, deep⟩ : ∃ depth, f.graph.values.size = depth + 1 := ⟨_, (Nat.succ_pred (by omega)).symm⟩
      have grows := lt_size_materializeOperands depth member isExpr
      rw [← deep] at grows
      refine .inr ?_
      dsimp only
      rw [updateGraph, (Graph.setInst_eq _ i _).2.2]
      exact grows
    next => exact .inl rfl

theorem materialize_cases (formed : f.Formed) : f.materialize = f ∨ f.graph.insts.size < f.materialize.graph.insts.size := by
  have more (is : List InstId) (g : Func) : g.graph.insts.size ≤ (is.foldl materializeInst g).graph.insts.size := by
    induction is generalizing g with
    | nil => exact Nat.le_refl _
    | cons i is ih => exact Nat.le_trans (keepsForm_materializeInst g i).graph.size (ih _)
  -- The first instruction that changes makes the code grow, and until then the code is `f`.
  have whole (is : List InstId) (listed : ∀ i ∈ is, i ∈ f.code) :
      is.foldl materializeInst f = f ∨ f.graph.insts.size < (is.foldl materializeInst f).graph.insts.size := by
    induction is with
    | nil => exact .inl rfl
    | cons i is ih =>
      obtain ⟨here, rest⟩ := List.forall_mem_cons.mp listed
      rw [List.foldl_cons]
      rcases materializeInst_cases formed here with still | grows
      · rw [still]
        exact ih rest
      · exact .inr (Nat.lt_of_lt_of_le grows (more is _))
  exact whole f.code fun _ member => member

end Func

namespace Module

/-- The functions of a program are formed. -/
def Formed (m : Module) : Prop :=
  ∀ id f, m.func? id = some f → f.Formed

variable {fixed : Prop} {m n : Module}

theorem KeepsForm.formed (keeps : m.KeepsForm fixed n) (formed : m.Formed) : n.Formed := by
  intro id g found
  obtain ⟨f, before⟩ := Option.isSome_iff_exists.mp (keeps.known id (by rw [found]; rfl))
  obtain ⟨h, after, kept⟩ := keeps.func id f before
  cases found.symm.trans after
  exact kept.formed (formed id f before)

theorem Formed.sound (formed : m.Formed) (tracked : m.Tracked) : m.Sound False True False :=
  fun id f found => (formed id f found).sound (tracked id f found)

theorem KeepsForm.retains (keeps : m.KeepsForm fixed n) : m.Retains n := by
  intro id
  unfold graph
  cases found : m.func? id with
  | none => exact Nat.zero_le _
  | some f =>
    obtain ⟨g, after, kept⟩ := keeps.func id f found
    rw [after]
    exact kept.graph.size

/-- A program that does not grow when its expressions are written out had none to write. -/
theorem materialize_eq_self (formed : m.Formed) (same : m.materialize.Retains m) : m.materialize = m := by
  have still (id : FuncId) (member : id ∈ m.definedFuncs) (f : Func) (found : m.func? id = some f) : f.materialize = f := by
    refine (f.materialize_cases (formed id f found)).resolve_right fun grows => Nat.not_le_of_lt grows ?_
    have after : m.materialize.func? id = some f.materialize := by
      rw [materialize, func?_foldl_updateFunc _ m.nodup_definedFuncs, if_pos member, found]
      rfl
    have size := same id
    rwa [graph_of_func? found, graph_of_func? after] at size
  have whole (ids : List FuncId) (inside : ids ⊆ m.definedFuncs) :
      ids.foldl (fun m f => m.updateFunc f Func.materialize) m = m := by
    induction ids with
    | nil => rfl
    | cons id ids ih =>
      obtain ⟨here, rest⟩ := List.cons_subset.mp inside
      rw [List.foldl_cons, updateFunc_congr (fun f => f) (still id here), updateFunc_id]
      exact ih rest
  exact whole m.definedFuncs (List.Subset.refl _)

end Module

end VarRecovery
