import VarRecovery.Code.Module

/-!
Removing dead code: instructions without effects whose results have no users, and then those whose
results have none left.
-/

set_option autoImplicit false

namespace VarRecovery

namespace Inst

/-- Whether an instruction does nothing but produce its result. -/
def isPure : Inst → Bool
  | .cast .. | .unary .. | .binary .. | .gep .. | .phi .. => true
  | _ => false

end Inst

namespace Func

def isDead (f : Func) (i : InstId) : Bool :=
  ((f.graph.inst? i).map Inst.isPure).getD false &&
    match f.graph.result? i with
    | some v => (f.graph.users v).isEmpty
    | none => false

theorem code_remove (f : Func) (i : InstId) : (f.remove i).code = f.code.filter (· ≠ i) := by
  unfold code remove Listing.remove Listing.updateAll Listing.allInsts
  induction f.listing.blocks with
  | nil => rfl
  | cons b bs ih =>
    simp only [List.map_cons, List.flatMap_cons, List.filter_append, ih]
    congr 1
    induction b.2 with
    | nil => rfl
    | cons j js ih => by_cases h : j = i <;> simp [h, ih]

theorem length_code_remove {f : Func} {i : InstId} (h : i ∈ f.code) :
    (f.remove i).code.length < f.code.length := by
  rw [code_remove]
  exact List.length_filter_lt_length_iff_exists.2 ⟨i, h, by simp⟩

/-- Looks at the instructions in `work`, and at those that produce the operands of each one removed.
Counts the removed. -/
def removeDeadFrom (f : Func) (work : List InstId) : Func × Nat :=
  match work with
  | [] => (f, 0)
  | i :: rest =>
    if _h : i ∈ f.code then
      if f.isDead i then
        let operands := f.graph.operands i
        let (g, n) := removeDeadFrom (f.remove i)
          ((operands.filterMap f.graph.definition?).reverse ++ rest)
        (g, n + 1)
      else removeDeadFrom f rest
    else removeDeadFrom f rest
termination_by (f.code.length, work.length)
decreasing_by
  · exact Prod.Lex.left _ _ (length_code_remove _h)
  · exact Prod.Lex.right _ (by simp)
  · exact Prod.Lex.right _ (by simp)

/-- Removes all dead code of a function, from its end on. -/
def removeDead (f : Func) : Func × Nat :=
  f.removeDeadFrom f.code.reverse

end Func

end VarRecovery
