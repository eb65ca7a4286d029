import VarRecovery.Pointer.Simplification
import VarRecovery.Proofs.Pointer.Growth

/-!
The instructions that simplification takes out: sums, and phis of integers as wide as a pointer. No edit
makes more of them.
-/

set_option autoImplicit false

namespace VarRecovery

namespace Graph

variable {g h : Graph}

def isIntPhi (g : Graph) (ty : Ty) (i : InstId) : Bool :=
  g.isPhi i && (g.result? i).any (g.ty · = ty)

def isSum (g : Graph) (i : InstId) : Bool :=
  ((g.inst? i).map Inst.isSum).getD false

theorem not_isIntPhi_of_isSum {ty : Ty} {i : InstId} (sum : g.isSum i) : g.isIntPhi ty i = false := by
  unfold isSum at sum
  cases found : g.inst? i with
  | none => simp [found] at sum
  | some inst =>
    rw [found] at sum
    simp [isIntPhi, isPhi, found, Inst.isPhi_of_isSum sum]

theorem Extends.isSum (grown : g.Extends h) {i : InstId} (inside : i.index < g.insts.size) :
    h.isSum i = g.isSum i := by
  rw [Graph.isSum, grown.map_inst Inst.isSum_mapOperands inside, Graph.isSum]

theorem Extends.isIntPhi (grown : g.Extends h) (valid : g.Valid) (ty : Ty) {i : InstId}
    (inside : i.index < g.insts.size) : h.isIntPhi ty i = g.isIntPhi ty i := by
  rw [Graph.isIntPhi, grown.isPhi inside, grown.result i inside, Graph.isIntPhi]
  cases result : g.result? i with
  | none => rfl
  | some v => simp [grown.ty (valid.result_lt result).2]

end Graph

namespace Func

variable {closed : Prop} {f g : Func} {phis new swept : List InstId} {intTy : Ty}

def isCandidate (intTy : Ty) (f : Func) (i : InstId) : Bool :=
  f.graph.isSum i || f.graph.isIntPhi intTy i

def intPhis (f : Func) (ty : Ty) : List InstId :=
  f.code.filter (f.graph.isIntPhi ty)

/-- What can still be folded or sunk, whatever the pointers. -/
def candidates (intTy : Ty) (f : Func) : List InstId :=
  f.code.filter (f.isCandidate intTy)

theorem additions_eq (f : Func) : f.additions = f.code.filter f.graph.isSum := by
  refine List.filter_congr fun i _ => ?_
  unfold Graph.isSum
  cases found : f.graph.inst? i with
  | none => rfl
  | some inst =>
    cases inst with
    | binary op lhs rhs => cases op <;> rfl
    | _ => rfl

theorem length_candidates (intTy : Ty) (f : Func) :
    (f.candidates intTy).length = f.additions.length + (f.intPhis intTy).length := by
  rw [additions_eq, candidates, intPhis]
  induction f.code with
  | nil => rfl
  | cons i rest ih =>
    by_cases sum : f.graph.isSum i
    · simp [isCandidate, sum, Graph.not_isIntPhi_of_isSum sum] at ih ⊢
      omega
    · by_cases phi : f.graph.isIntPhi intTy i
      · simp [isCandidate, sum, phi] at ih ⊢
        omega
      · simpa [isCandidate, sum, phi] using ih

theorem isCandidate_of_extends (intTy : Ty) (grown : f.graph.Extends g.graph) (valid : f.Valid) {i : InstId}
    (listed : i ∈ f.code) : g.isCandidate intTy i = f.isCandidate intTy i := by
  have inside := valid.code_lt i listed
  rw [isCandidate, grown.isSum inside, grown.isIntPhi valid.graph intTy inside, isCandidate]

theorem length_candidates_of_code_eq (grown : f.graph.Extends g.graph) (valid : f.Valid)
    (same : g.code = f.code) : (g.candidates intTy).length = (f.candidates intTy).length := by
  rw [candidates, same, List.filter_congr fun i listed => isCandidate_of_extends intTy grown valid listed,
    candidates]

theorem length_candidates_insert (sound : f.Valid) {inst : Inst} {ty : Ty} {place : Place}
    (perm : (f.listing.insert f.graph.nextInst place).allInsts.Perm (f.graph.nextInst :: f.code))
    (noSum : inst.isSum = false) (noPhi : inst.isPhi → ty ≠ intTy) :
    ((f.insert inst ty place).1.candidates intTy).length = (f.candidates intTy).length := by
  have grown : f.graph.Extends (f.insert inst ty place).1.graph :=
    graph_insert f inst ty place ▸ .emit sound.graph inst ty
  have fresh : (f.insert inst ty place).1.isCandidate intTy f.graph.nextInst = false := by
    have resultTy := ty_nextValue f inst ty place
    rw [graph_insert] at resultTy
    simp only [isCandidate, Graph.isSum, Graph.isIntPhi, graph_insert, Graph.inst?_emit, isPhi_nextInst,
      Graph.result?_emit sound.graph.size_results, if_pos, Option.map_some, Option.getD_some, noSum]
    by_cases phi : inst.isPhi
    · simp [resultTy, noPhi phi]
    · simp [phi]
  have listed : (f.insert inst ty place).1.code.Perm (f.graph.nextInst :: f.code) := by
    rw [code, listing_insert]
    exact perm
  rw [candidates, (listed.filter _).length_eq, List.filter_cons_of_neg (by simp [fresh]),
    List.filter_congr fun i inside => isCandidate_of_extends intTy grown sound inside, candidates]

theorem Edit.length_candidates (edit : Edit True True closed new f g) (valid : f.Valid)
    (noPtr : intTy.isPtr = false) : (g.candidates intTy).length = (f.candidates intTy).length := by
  have grown := edit.grows valid
  cases edit with
  | imm => exact length_candidates_of_code_eq grown valid rfl
  | insert ty isPure noPhi noSum anchored =>
    refine length_candidates_insert valid ?_ noSum fun phi => ?_
    · exact Listing.perm_insertBefore valid.code_nodup anchored
    · simp [noPhi] at phi
  | phi there usable isPtr =>
    refine length_candidates_insert valid ?_ rfl fun _ => ?_
    · exact Listing.perm_prepend valid.blocks_nodup there
    · rintro rfl
      simp [noPtr] at isPtr
  | replace => exact length_candidates_of_code_eq grown valid rfl

theorem length_candidates_remove (intTy : Ty) (valid : f.Valid) {i : InstId} (listed : i ∈ f.code) :
    ((f.remove i).candidates intTy).length + (if f.isCandidate intTy i then 1 else 0) ≤
      (f.candidates intTy).length := by
  have grown : f.graph.Extends (f.remove i).graph := .untrack f.graph i
  have remaining : (f.remove i).candidates intTy = (f.candidates intTy).filter (· ≠ i) := by
    rw [candidates, candidates, code_remove, List.filter_filter, List.filter_filter]
    refine List.filter_congr fun j inside => ?_
    rw [isCandidate_of_extends intTy grown valid inside, Bool.and_comm]
  rw [remaining]
  split
  next candidate =>
    refine Nat.succ_le_of_lt (List.length_filter_lt_length_iff_exists.mpr ⟨i, ?_, by simp⟩)
    exact List.mem_filter.mpr ⟨listed, candidate⟩
  next => exact List.length_filter_le _ _

theorem Edits.length_candidates (edits : Edits True True closed phis swept f g) (sound : f.Sound True True closed)
    (noPtr : intTy.isPtr = false) :
    (g.candidates intTy).length + (swept.filter fun i => i ∈ f.code && f.isCandidate intTy i).length ≤
      (f.candidates intTy).length := by
  induction edits with
  | refl => simp
  | edit before last ih =>
    rw [last.length_candidates (before.sound sound).valid noPtr]
    exact ih sound
  | @sweep f g _ swept i before listed dead ih =>
    have ih := ih sound
    have valid := (before.sound sound).valid
    have grown := before.grows sound
    have remaining := length_candidates_remove intTy valid listed
    rw [List.filter_append, List.length_append]
    by_cases candidate : i ∈ f.code ∧ f.isCandidate intTy i
    · have still := isCandidate_of_extends intTy grown sound.valid candidate.1
      simp only [candidate, still, if_true] at remaining
      simp only [List.filter_cons, candidate, decide_true, Bool.and_self, if_true, List.filter_nil,
        List.length_singleton]
      omega
    · simp only [List.filter_cons, List.filter_nil, Bool.and_eq_true, decide_eq_true_eq, candidate, if_false,
        List.length_nil]
      omega

end Func

end VarRecovery
