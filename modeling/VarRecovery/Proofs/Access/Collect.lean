import VarRecovery.Proofs.Access.Materialize
import VarRecovery.Proofs.Access.Trace
import VarRecovery.Proofs.Recovering

/-!
The users of cells. In closed code the search for constants goes from listed instructions to listed ones, so that
of each cell that is collected the user is listed.
-/

set_option autoImplicit false

namespace VarRecovery

namespace Func

/-- A listed instruction uses a value. -/
def IsUse (f : Func) (use : Graph.Use) : Prop :=
  use.1 ∈ f.code ∧ use.2 ∈ f.graph.operands use.1

variable {f : Func} {i : InstId} {use : Graph.Use}

theorem OperandsDefined.sources (defined : f.OperandsDefined) (isUse : f.IsUse use) :
    ∀ source ∈ f.graph.sources use, f.IsUse source := by
  intro source member
  unfold Graph.sources at member
  split at member
  next => cases member
  next i made =>
    split at member
    next => cases member
    next inst found =>
      obtain ⟨v, operand, rfl⟩ := List.mem_map.mp member
      exact ⟨defined _ isUse.1 _ isUse.2 i made,
        Graph.mem_operands.mpr ⟨inst, found, Graph.mem_operands_of_addressOperands operand⟩⟩

theorem OperandsDefined.traceConstants (defined : f.OperandsDefined) (isUse : f.IsUse use) :
    ∀ found ∈ f.graph.traceConstants use.1 use.2, f.IsUse found :=
  Graph.forall_traceFrom (fun _ => defined.sources) (List.forall_mem_singleton.mpr isUse)

end Func

namespace Module

variable {m : Module} {start : String} {f : Func} {i : InstId} {use : AddressUse}

/-- How an instruction uses an address: as what the intrinsic it calls accesses, as what it casts to a pointer, as a
pointer that it casts to another, or as what it passes to a function. -/
inductive UsedBy (m : Module) (start : String) (g : Graph) : AddressUse → Inst → Prop
  | intrinsic {callee : FuncId} {args : List ValueId} {ret : Ty} {intrinsic : Intrinsic} {address : ValueId} (i : InstId)
    (named : m.intrinsic? start callee = some intrinsic) (memory : intrinsic.isMemoryAccess = true)
    (second : args[1]? = some address) :
    UsedBy m start g ⟨i, address, intrinsic.accessTy g (g.result? i) args, intrinsic.access⟩ (.call callee args ret)
  | pointer (i : InstId) (arg : ValueId) (pointee : Ty) :
    UsedBy m start g ⟨i, arg, pointee, .plain⟩ (.cast .intToPtr arg (.ptr pointee))
  | recast {arg : ValueId} {origin pointee : Ty} (i : InstId) (ty : Ty) (known : g.originPtrTy? arg = some origin)
    (points : origin.pointee? = some pointee) : UsedBy m start g ⟨i, arg, pointee, .plain⟩ (.cast .bitcast arg (.ptr ty))
  | argument {callee : FuncId} {args : List ValueId} {ret : Ty} {v : ValueId} {pointee : Ty} (i : InstId)
    (named : m.intrinsic? start callee = none) (inside : v ∈ args) (points : (g.ty v).pointee? = some pointee) :
    UsedBy m start g ⟨i, v, pointee, .plain⟩ (.call callee args ret)

theorem usedBy_of_directUse? {g : Graph} (found : m.directUse? start g i = some use) :
    use.user = i ∧ ∃ inst, g.inst? i = some inst ∧ m.UsedBy start g use inst := by
  unfold directUse? at found
  split at found
  next callee args ret call =>
    obtain ⟨intrinsic, named, found⟩ := Option.bind_eq_some_iff.mp found
    split at found
    next memory =>
      obtain ⟨address, second, found⟩ := Option.bind_eq_some_iff.mp found
      cases found
      exact ⟨rfl, _, call, .intrinsic i named memory second⟩
    next => cases found
  next arg pointee cast =>
    cases found
    exact ⟨rfl, _, cast, .pointer i arg pointee⟩
  next arg ty cast =>
    obtain ⟨origin, known, found⟩ := Option.bind_eq_some_iff.mp found
    obtain ⟨pointee, points, found⟩ := Option.bind_eq_some_iff.mp found
    cases found
    exact ⟨rfl, _, cast, .recast i ty known points⟩
  next => cases found

theorem usedBy_of_mem_argumentUses {g : Graph} (member : use ∈ m.argumentUses start g i) :
    use.user = i ∧ ∃ inst, g.inst? i = some inst ∧ m.UsedBy start g use inst := by
  unfold argumentUses at member
  split at member
  next callee args ret call =>
    split at member
    next => cases member
    next named =>
      obtain ⟨v, inside, found⟩ := List.mem_filterMap.mp member
      obtain ⟨pointee, points, rfl⟩ := Option.map_eq_some_iff.mp found
      exact ⟨rfl, _, call, .argument i named inside points⟩
  next => cases member

/-- The uses of addresses in a function are those by its listed instructions. -/
theorem mem_addressUses : use ∈ m.addressUses start f ↔
    use.user ∈ f.code ∧ ∃ inst, f.graph.inst? use.user = some inst ∧ m.UsedBy start f.graph use inst := by
  constructor
  · intro member
    rcases List.mem_append.mp member with direct | argument
    · obtain ⟨i, listed, found⟩ := List.mem_filterMap.mp direct
      obtain ⟨rfl, used⟩ := usedBy_of_directUse? found
      exact ⟨listed, used⟩
    · obtain ⟨i, listed, member⟩ := List.mem_flatMap.mp argument
      obtain ⟨rfl, used⟩ := usedBy_of_mem_argumentUses member
      exact ⟨listed, used⟩
  · rintro ⟨listed, inst, found, used⟩
    have direct (same : m.directUse? start f.graph use.user = some use) : use ∈ m.addressUses start f :=
      List.mem_append_left _ (List.mem_filterMap.mpr ⟨_, listed, same⟩)
    cases used with
    | intrinsic i named memory second =>
      refine direct ?_
      simp only [directUse?, found, named, Option.bind_eq_bind, Option.bind_some, memory, if_true, second]
      rfl
    | pointer i arg pointee => exact direct (by simp only [directUse?, found])
    | recast i ty known points => exact direct (by simp [directUse?, found, known, points])
    | argument i named inside points =>
      refine List.mem_append_right _ (List.mem_flatMap.mpr ⟨i, listed, ?_⟩)
      simp only [argumentUses, found, named]
      exact List.mem_filterMap.mpr ⟨_, inside, by rw [points]; rfl⟩

theorem UsedBy.operand {g : Graph} {inst : Inst} (used : m.UsedBy start g use inst) : use.address ∈ inst.operands := by
  cases used with
  | intrinsic i named memory second => exact List.mem_of_getElem? second
  | pointer i arg pointee => exact List.mem_singleton_self arg
  | recast i ty known points => exact List.mem_singleton_self _
  | argument i named inside points => exact inside

theorem isUse_of_mem_addressUses (member : use ∈ m.addressUses start f) : f.IsUse (use.user, use.address) := by
  obtain ⟨listed, inst, found, used⟩ := mem_addressUses.mp member
  exact ⟨listed, Graph.mem_operands.mpr ⟨inst, found, used.operand⟩⟩

/-- A use is by a call, which tells by its callee how memory is accessed, or by a cast. -/
inductive AccessedBy (m : Module) (start : String) (use : AddressUse) : Inst → Prop
  | call {callee : FuncId} {args : List ValueId} {ret : Ty}
    (access : use.access = ((m.intrinsic? start callee).map Intrinsic.access).getD .plain) :
    AccessedBy m start use (.call callee args ret)
  | cast {op : CastOp} {arg : ValueId} {ty : Ty} (access : use.access = .plain) : AccessedBy m start use (.cast op arg ty)

theorem UsedBy.accessedBy {g : Graph} {inst : Inst} (used : m.UsedBy start g use inst) : m.AccessedBy start use inst := by
  cases used with
  | intrinsic i named memory second => exact .call (by rw [named]; rfl)
  | pointer i arg pointee => exact .cast rfl
  | recast i ty known points => exact .cast rfl
  | argument i named inside points => exact .call (by rw [named]; rfl)

theorem user_of_mem_addressUses (member : use ∈ m.addressUses start f) :
    ∃ inst, f.graph.inst? use.user = some inst ∧ m.AccessedBy start use inst := by
  obtain ⟨-, inst, found, used⟩ := mem_addressUses.mp member
  exact ⟨inst, found, used.accessedBy⟩

end Module

/-- The user of a cell is listed, and its constant is a value. -/
def Cell.Listed (m : Module) (f : FuncId) (c : Cell) : Prop :=
  m.Lists f c.user ∧ m.Holds f c.value

namespace Cell.Listed

variable {m n : Module} {f : FuncId} {c : Cell}

theorem revise (listed : c.Listed m f) (revision : m.Revision n) : c.Listed n f :=
  ⟨revision.lists listed.1, revision.holds listed.2⟩

end Cell.Listed

namespace Cells

structure Listed (m : Module) (cs : Cells) : Prop where
  stack : ∀ s ∈ cs.stack, ∀ c ∈ s.2, c.Listed m s.1
  globals : ∀ c ∈ cs.globals, c.Listed m c.func

variable {m : Module} {cs : Cells} {c : Cell} {stack : List (FuncId × List Cell)}

theorem addTo_listed (all : ∀ s ∈ stack, ∀ d ∈ s.2, d.Listed m s.1) (listed : c.Listed m c.func) :
    ∀ s ∈ addTo c stack, ∀ d ∈ s.2, d.Listed m s.1 := by
  induction stack with
  | nil => exact List.forall_mem_singleton.mpr (List.forall_mem_singleton.mpr listed)
  | cons s rest ih =>
    obtain ⟨f, cells⟩ := s
    obtain ⟨here, others⟩ := List.forall_mem_cons.mp all
    unfold addTo
    split
    next same =>
      subst same
      exact List.forall_mem_cons.mpr
        ⟨List.forall_mem_append.mpr ⟨here, List.forall_mem_singleton.mpr listed⟩, others⟩
    next => exact List.forall_mem_cons.mpr ⟨here, ih others⟩

theorem Listed.addStack (all : cs.Listed m) (listed : c.Listed m c.func) : (cs.addStack c).Listed m :=
  ⟨addTo_listed all.stack listed, all.globals⟩

theorem Listed.addGlobal (all : cs.Listed m) (listed : c.Listed m c.func) : (cs.addGlobal c).Listed m :=
  ⟨all.stack, List.forall_mem_append.mpr ⟨all.globals, List.forall_mem_singleton.mpr listed⟩⟩

end Cells

namespace Collection

variable {image : Image} {start : String} {m : Module} {id : FuncId} {f : Func} {c d : Collection}

theorem addCell_listed (listed : c.cells.Listed m) {cell : Cell} (here : cell.Listed m cell.func) :
    (addCell image c cell).cells.Listed m := by
  unfold addCell
  dsimp only
  split
  next => exact listed
  next =>
    dsimp only
    split
    next => exact listed.addStack here
    next => exact listed.addGlobal here
    next => exact listed.addGlobal here
    next => exact listed

theorem cellsOf_listed (tracked : f.Tracked) (defined : f.OperandsDefined) (found : m.func? id = some f)
    {use : AddressUse} (isUse : f.IsUse (use.user, use.address)) (size : Nat) :
    ∀ cell ∈ cellsOf id f.graph use size, cell.Listed m cell.func := by
  intro cell member
  obtain ⟨⟨user, value⟩, reached, made⟩ := List.mem_filterMap.mp member
  obtain ⟨i, -, rfl⟩ := Option.map_eq_some_iff.mp made
  obtain ⟨inside, operand⟩ := defined.traceConstants isUse (user, value) reached
  exact ⟨⟨f, found, inside⟩, f, found, tracked.known operand⟩

theorem foldl_addCell_listed {cells : List Cell} (listed : c.cells.Listed m)
    (all : ∀ cell ∈ cells, cell.Listed m cell.func) : (cells.foldl (addCell image) c).cells.Listed m := by
  induction cells generalizing c with
  | nil => exact listed
  | cons cell rest ih =>
    obtain ⟨here, others⟩ := List.forall_mem_cons.mp all
    exact ih (addCell_listed listed here) others

theorem addFunc_listed (tracked : m.Tracked) (defined : ∀ id f, m.func? id = some f → f.OperandsDefined)
    (listed : c.cells.Listed m) (h : addFunc image start m c id = .ok d) : d.cells.Listed m := by
  unfold addFunc at h
  split at h
  next f found =>
    exact Recovering.foldlM_eq_ok (motive := fun c => c.cells.Listed m) listed
      (fun use _ _ member before added => by
        obtain ⟨size, -, done⟩ := Recovering.bind_eq_ok added
        cases done
        have isUse := Module.isUse_of_mem_addressUses member
        exact foldl_addCell_listed before (cellsOf_listed (tracked id f found) (defined id f found) found isUse size)) h
  next =>
    cases h
    exact listed

end Collection

namespace Module

variable {m n : Module} {image : Image} {start : String} {cells : Cells}

theorem collect_listed (tracked : m.Tracked) (closed : m.Closed) (h : m.collect image start = .ok (n, cells)) :
    m.Revision n ∧ cells.Listed n := by
  obtain ⟨written, closes⟩ := materialize_rewritten tracked fun _ : True => closed
  obtain ⟨c, collected, done⟩ := Recovering.bind_eq_ok h
  cases done
  refine ⟨written, ?_⟩
  exact Recovering.foldlM_eq_ok (motive := fun c => c.cells.Listed m.materialize) ⟨nofun, nofun⟩
    (fun id _ _ _ before =>
      Collection.addFunc_listed written.tracked (fun id f found => (closes trivial id f found).code) before) collected

end Module

end VarRecovery
