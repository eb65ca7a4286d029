import VarRecovery.Proofs.Access.Trace

/-!
The search for constants as a loop over a list of open uses and a list of those that were visited. The loop ends in any
graph, also where phis feed each other, and it finds each constant that its use comes from once.
-/

set_option autoImplicit false

namespace VarRecovery

namespace Graph

variable {g : Graph} {visited unseen work found other : List Use} {use source : Use}

def IsConstant (g : Graph) (v : ValueId) : Prop :=
  ∃ c, g.value? v = some (.imm c)

theorem isImm_iff {v : ValueId} : g.isImm v = true ↔ g.IsConstant v := by
  unfold isImm imm? IsConstant
  split <;> simp_all

/-- One step back from a use. A sum with one constant goes on with its first operand, whichever the constant is. -/
inductive TracesTo (g : Graph) (use : Use) : Use → Prop
  | cast {i : InstId} {op : CastOp} {arg : ValueId} {ty : Ty} (made : g.definition? use.2 = some i)
      (found : g.inst? i = some (.cast op arg ty))
      (traced : op ∈ [.bitcast, .intToPtr, .ptrToInt, .sext, .zext]) : TracesTo g use (i, arg)
  | gep {i : InstId} {base : ValueId} {path : List ValueId} (made : g.definition? use.2 = some i)
      (found : g.inst? i = some (.gep base path)) : TracesTo g use (i, base)
  | sum {i : InstId} {op : BinaryOp} {lhs rhs : ValueId} (made : g.definition? use.2 = some i)
      (found : g.inst? i = some (.binary op lhs rhs)) (linear : op ∈ [.add, .sub])
      (one : Xor (g.IsConstant lhs) (g.IsConstant rhs)) : TracesTo g use (i, lhs)
  | phi {i : InstId} {incoming : List (ValueId × BlockId)} {ty : Ty} {w : ValueId} {block : BlockId}
      (made : g.definition? use.2 = some i) (found : g.inst? i = some (.phi incoming ty))
      (member : (w, block) ∈ incoming) : TracesTo g use (i, w)

theorem mem_addressOperands_cast {op : CastOp} {arg v : ValueId} {ty : Ty} : v ∈ g.addressOperands (.cast op arg ty) ↔
    op ∈ [.bitcast, .intToPtr, .ptrToInt, .sext, .zext] ∧ v = arg := by
  cases op <;> simp [addressOperands, CastOp.isTraced, CastOp.keepsBits]

theorem one_constant_iff {lhs rhs : ValueId} :
    (g.isImm lhs != g.isImm rhs) = true ↔ Xor (g.IsConstant lhs) (g.IsConstant rhs) := by
  rw [← isImm_iff, ← isImm_iff]
  cases g.isImm lhs <;> cases g.isImm rhs <;> simp [Xor]

theorem mem_addressOperands_binary {op : BinaryOp} {lhs rhs v : ValueId} :
    v ∈ g.addressOperands (.binary op lhs rhs) ↔
      op ∈ [.add, .sub] ∧ Xor (g.IsConstant lhs) (g.IsConstant rhs) ∧ v = lhs := by
  rw [← one_constant_iff]
  cases op <;> simp [addressOperands]

theorem mem_sources_iff : source ∈ g.sources use ↔ g.TracesTo use source := by
  rw [mem_sources]
  constructor
  · rintro ⟨inst, made, found, operand⟩
    obtain ⟨i, v⟩ := source
    cases inst with
    | cast op arg ty =>
      obtain ⟨traced, rfl⟩ := mem_addressOperands_cast.mp operand
      exact .cast made found traced
    | gep base path =>
      obtain rfl := List.mem_singleton.mp operand
      exact .gep made found
    | binary op lhs rhs =>
      obtain ⟨linear, one, rfl⟩ := mem_addressOperands_binary.mp operand
      exact .sum made found linear one
    | phi incoming ty =>
      obtain ⟨⟨w, block⟩, member, rfl⟩ := List.mem_map.mp operand
      exact .phi made found member
    | _ => cases operand
  · intro step
    cases step with
    | cast made found traced => exact ⟨_, made, found, mem_addressOperands_cast.mpr ⟨traced, rfl⟩⟩
    | gep made found => exact ⟨_, made, found, List.mem_singleton_self _⟩
    | sum made found linear one => exact ⟨_, made, found, mem_addressOperands_binary.mpr ⟨linear, one, rfl⟩⟩
    | phi made found member => exact ⟨_, made, found, List.mem_map.mpr ⟨_, member, rfl⟩⟩

theorem leads_iff : g.Leads use source ↔ Relation.ReflTransGen g.TracesTo use source := by
  constructor
  · exact Relation.ReflTransGen.mono (fun _ _ step => mem_sources_iff.mp step) _ _
  · exact Relation.ReflTransGen.mono (fun _ _ step => mem_sources_iff.mpr step) _ _

/-! ### The loop -/

/-- What the loop finds from some open uses on, if it ends. The first of them is taken, and the uses that it comes from
are put in front of the others, the last one first. -/
inductive Searches (g : Graph) : List Use → List Use → List Use → Prop
  | done {visited : List Use} : Searches g visited [] []
  | again {visited rest found : List Use} {use : Use} (seen : use ∈ visited) (later : Searches g visited rest found) :
      Searches g visited (use :: rest) found
  | constant {visited rest found : List Use} {use : Use} (new : use ∉ visited) (here : g.IsConstant use.2)
      (later : Searches g (use :: visited) rest found) : Searches g visited (use :: rest) (use :: found)
  | back {visited rest found : List Use} {use : Use} (new : use ∉ visited) (elsewhere : ¬g.IsConstant use.2)
      (later : Searches g (use :: visited) ((g.sources use).reverse ++ rest) found) :
      Searches g visited (use :: rest) found

theorem Searches.unique (search : g.Searches visited work found) (again : g.Searches visited work other) :
    found = other := by
  induction search generalizing other with
  | done => cases again; rfl
  | again seen later ih =>
    cases again with
    | again _ rest => exact ih rest
    | constant new => exact absurd seen new
    | back new => exact absurd seen new
  | constant new here later ih =>
    cases again with
    | again seen => exact absurd seen new
    | constant _ _ rest => rw [ih rest]
    | back _ elsewhere => exact absurd here elsewhere
  | back new elsewhere later ih =>
    cases again with
    | again seen => exact absurd seen new
    | constant _ here => exact absurd here elsewhere
    | back _ _ rest => exact ih rest

theorem sources_of_isConstant (constant : g.IsConstant use.2) : g.sources use = [] := by
  obtain ⟨c, found⟩ := constant
  simp [sources, definition?, found]

/-- The loop visits exactly what is no longer unseen, as far as it can come: all uses lie among the first one and those
of the code. -/
theorem searches_traceFrom {all : List Use} (inside : ∀ use ∈ work, use ∈ all)
    (closed : ∀ use, ∀ source ∈ g.sources use, source ∈ all)
    (open_ : ∀ use ∈ all, use ∈ unseen ↔ use ∉ visited) : g.Searches visited work (g.traceFrom unseen work) := by
  -- The program counts down what it has not seen; the search counts up what it has visited.
  -- `open_` says that the two are complements among all uses.
  induction unseen, work using traceFrom.induct g generalizing visited with
  | case1 unseen =>
    rw [traceFrom]
    exact .done
  | case2 unseen use rest fresh ih =>
    rw [traceFrom, if_pos fresh]
    have here := inside use List.mem_cons_self
    have new := (open_ use here).mp fresh
    have left : ∀ other ∈ all, other ∈ without use unseen ↔ other ∉ use :: visited := by
      intro other member
      simp [mem_without, open_ other member, and_comm]
    have later : ∀ other ∈ (g.sources use).reverse ++ rest, other ∈ all := by
      intro other member
      rcases List.mem_append.mp member with from_ | waiting
      · exact closed use other (List.mem_reverse.mp from_)
      · exact inside other (List.mem_cons_of_mem use waiting)
    have goes := ih later left
    by_cases constant : g.IsConstant use.2
    · rw [sources_of_isConstant constant] at goes ⊢
      simpa [isImm_iff.mpr constant] using Searches.constant new constant goes
    · have noImm : g.isImm use.2 = false := by simpa [← isImm_iff] using constant
      simpa [noImm] using Searches.back new constant goes
  | case3 unseen use rest seen ih =>
    rw [traceFrom, if_neg seen]
    have here := inside use List.mem_cons_self
    have visited_ : use ∈ visited := by
      by_contra new
      exact seen ((open_ use here).mpr new)
    exact .again visited_ (ih (fun other member => inside other (List.mem_cons_of_mem use member)) open_)

theorem mem_unseen_of_mem_traceFrom : ∀ use ∈ g.traceFrom unseen work, use ∈ unseen := by
  induction unseen, work using traceFrom.induct g with
  | case1 unseen =>
    rw [traceFrom]
    intro other member
    cases member
  | case2 unseen use rest fresh ih =>
    rw [traceFrom, if_pos fresh]
    intro other member
    rcases List.mem_append.mp member with here | later
    · split at here
      next => exact List.mem_singleton.mp here ▸ fresh
      next => cases here
    · exact (mem_without.mp (ih other later)).1
  | case3 unseen use rest seen ih =>
    rw [traceFrom, if_neg seen]
    exact ih

theorem nodup_traceFrom : (g.traceFrom unseen work).Nodup := by
  induction unseen, work using traceFrom.induct g with
  | case1 unseen =>
    rw [traceFrom]
    exact .nil
  | case2 unseen use rest fresh ih =>
    rw [traceFrom, if_pos fresh]
    -- What is found later was unseen, which a visited use is not.
    have differs : use ∉ g.traceFrom (without use unseen) ((g.sources use).reverse ++ rest) := by
      intro later
      exact (mem_without.mp (mem_unseen_of_mem_traceFrom use later)).2 rfl
    split
    next => exact List.nodup_cons.mpr ⟨differs, ih⟩
    next => exact ih
  | case3 unseen use rest seen ih =>
    rw [traceFrom, if_neg seen]
    exact ih

/-- The loop ends in one way, with each constant found once that can be traced back to. -/
theorem traceConstants_finds_once (g : Graph) (user : InstId) (v : ValueId) :
    (∀ found, g.Searches [] [(user, v)] found ↔ found = g.traceConstants user v) ∧
      (g.traceConstants user v).Nodup ∧
      ∀ use, use ∈ g.traceConstants user v ↔
        Relation.ReflTransGen g.TracesTo (user, v) use ∧ g.IsConstant use.2 := by
  have inside : ∀ use ∈ [(user, v)], use ∈ (user, v) :: g.uses := by simp
  have closed : ∀ use, ∀ source ∈ g.sources use, source ∈ (user, v) :: g.uses := by
    intro use source from_
    exact List.mem_cons_of_mem _ (mem_uses_of_mem_sources from_)
  -- Nothing is visited yet, so all uses are unseen.
  have ends : g.Searches [] [(user, v)] (g.traceConstants user v) := searches_traceFrom inside closed (by simp)
  refine ⟨fun found => ⟨fun search => search.unique ends, ?_⟩, nodup_traceFrom, fun use => ?_⟩
  · rintro rfl
    exact ends
  · rw [mem_traceConstants, leads_iff, isImm_iff, and_comm]

end Graph

end VarRecovery
