import VarRecovery.Proofs.Access.Collect
import VarRecovery.Proofs.Access.Recorded
import VarRecovery.Proofs.Region.Homes

/-!
Searches for constants in code whose constants got homes. What is traced afterwards was traced before, or it comes to a
new value, from where it finds no constant.
-/

set_option autoImplicit false

namespace VarRecovery

namespace Inst

/-- What an instruction was before its operands became others. -/
theorem exists_of_mapOperands_call {σ : ValueId → ValueId} {inst : Inst} {callee : FuncId} {args : List ValueId} {ret : Ty}
    (same : inst.mapOperands σ = .call callee args ret) : ∃ before, inst = .call callee before ret ∧ args = before.map σ := by
  cases inst <;> simp_all [mapOperands]

theorem exists_of_mapOperands_cast {σ : ValueId → ValueId} {inst : Inst} {op : CastOp} {arg : ValueId} {ty : Ty}
    (same : inst.mapOperands σ = .cast op arg ty) : ∃ before, inst = .cast op before ty ∧ arg = σ before := by
  cases inst <;> simp_all [mapOperands]

end Inst

namespace Graph

variable {g h : Graph} {moved : InstId → ValueId → Prop} {old : Nat} {i : InstId} {inst : Inst} {v w : ValueId}
  {use : Use}

/-- Casts lead back from a value to one that leads to no constant. -/
def Escapes (old : Nat) (g : Graph) (v : ValueId) : Prop :=
  ∃ w, g.CastFrom v w ∧ g.Clear old w

theorem Clear.escapes (clear : g.Clear old v) : g.Escapes old v :=
  ⟨v, .refl, clear⟩

theorem Escapes.not_imm (escapes : g.Escapes old v) : g.imm? v = none := by
  obtain ⟨w, way, clear⟩ := escapes
  rcases way.cases_head with rfl | ⟨u, step, -⟩
  · exact clear.not_imm
  · obtain ⟨i, -, -, made, -⟩ := castSource?_eq_some.mp step
    obtain ⟨ty, found⟩ := definition?_eq_some.mp made
    rw [imm?, found]

theorem head?_of_addressOperands (isPhi : inst.isPhi = false) (member : v ∈ g.addressOperands inst) :
    inst.operands.head? = some v := by
  unfold addressOperands at member
  split at member
  case h_5 => cases isPhi
  case h_6 => cases member
  case h_2 => exact congrArg some (List.mem_singleton.mp member).symm
  all_goals
    split at member
    next => exact congrArg some (List.mem_singleton.mp member).symm
    next => cases member

theorem Rehomes.definition? (rehomes : g.Rehomes old moved h) (there : g.Has v) :
    h.definition? v = g.definition? v := by
  obtain ⟨val, found⟩ := exists_value there
  obtain ⟨other, after, alike⟩ := rehomes.value v val found
  cases alike <;> simp [Graph.definition?, found, after]

theorem Rehomes.imm?_eq (rehomes : g.Rehomes old moved h) (there : g.Has v) : h.imm? v = g.imm? v := by
  obtain ⟨val, found⟩ := exists_value there
  obtain ⟨other, after, alike⟩ := rehomes.value v val found
  cases alike <;> simp [Graph.imm?, found, after]

/-- A value has the type it had, if it leads to a constant at all. -/
theorem Rehomes.ty (rehomes : g.Rehomes old moved h) (there : g.Has v) : h.Clear old v ∨ h.ty v = g.ty v := by
  obtain ⟨val, found⟩ := exists_value there
  obtain ⟨other, after, alike⟩ := rehomes.value v val found
  cases alike with
  | same => exact .inr (by simp [Graph.ty, found, after])
  | global id ty other => exact .inl ⟨_, after, trivial⟩

/-- What makes a value is not new, unless the value leads to no constant. -/
theorem Rehomes.made (rehomes : g.Rehomes g.insts.size moved h) (there : g.Has v) (made : h.definition? v = some i) :
    h.Clear g.insts.size v ∨ g.definition? v = some i ∧ ∃ before, g.inst? i = some before := by
  rw [rehomes.definition? there] at made
  rcases Nat.lt_or_ge i.index g.insts.size with inside | new
  · exact .inr ⟨made, exists_inst inside⟩
  · obtain ⟨ty, found⟩ := definition?_eq_some.mp made
    exact .inl (rehomes.clear ⟨_, found, new⟩)

theorem Rehomes.castFrom (rehomes : g.Rehomes g.insts.size moved h) (known : ∀ i, ∀ v ∈ g.operands i, g.Has v)
    (there : g.Has v) (way : h.CastFrom v w) : h.Escapes g.insts.size v ∨ g.CastFrom v w ∧ g.Has w := by
  induction way with
  | refl => exact .inr ⟨.refl, there⟩
  | @tail mid w before step ih =>
    rcases ih with escapes | ⟨way, inside⟩
    · exact .inl escapes
    · obtain ⟨i, op, ty, made, found, keeps⟩ := castSource?_eq_some.mp step
      rcases rehomes.made inside made with clear | ⟨made, inst, old⟩
      · exact .inl ⟨mid, before, clear⟩
      · obtain ⟨σ, after, kept⟩ := rehomes.inst i inst old
        obtain ⟨arg, rfl, same⟩ := Inst.exists_of_mapOperands_cast (Option.some.inj (after.symm.trans found))
        subst same
        rcases kept arg with same | ⟨-, clear⟩
        · rw [same]
          refine .inr ⟨way.tail (castSource?_eq_some.mpr ⟨i, op, ty, made, old, keeps⟩), known i arg ?_⟩
          exact mem_operands.mpr ⟨_, old, List.mem_singleton_self arg⟩
        · exact .inl ⟨_, before.tail step, clear⟩

/-- A search that has come to such a value goes on to others. -/
theorem Rehomes.sources_escape (rehomes : g.Rehomes g.insts.size moved h) {i : InstId}
    (escapes : h.Escapes g.insts.size v) : ∀ source ∈ h.sources (i, v), h.Escapes g.insts.size source.2 := by
  intro source member
  obtain ⟨inst, made, found, operand⟩ := mem_sources.mp member
  obtain ⟨w, way, clear⟩ := escapes
  rcases way.cases_head with rfl | ⟨u, step, rest⟩
  · have none_ : g.inst? source.1 = none := Array.getElem?_eq_none (clear.definition? made)
    have lays := rehomes.laid _ inst found none_
    exact (lays.clear _ (head?_of_addressOperands lays.isPhi operand)).escapes
  · obtain ⟨j, op, ty, again, cast, keeps⟩ := castSource?_eq_some.mp step
    cases made.symm.trans again
    cases found.symm.trans cast
    have traced : op.isTraced = true := by cases op <;> first | rfl | cases keeps
    rw [addressOperands, if_pos traced] at operand
    exact List.mem_singleton.mp operand ▸ ⟨w, rest, clear⟩

/-- What a search comes to afterwards: new values, or what it came to before, in the same place. -/
def Retraced (old : Nat) (traced : Use → Prop) (h : Graph) (use : Use) : Prop :=
  h.Escapes old use.2 ∨ traced use ∧ use.2 ∈ h.operands use.1

theorem Rehomes.isImm_eq (rehomes : g.Rehomes old moved h) (there : g.Has v) : h.isImm v = g.isImm v := by
  rw [isImm, rehomes.imm?_eq there, isImm]

/-- An instruction computes an address from what it did, or from a new value. -/
theorem Rehomes.addressOperands (rehomes : g.Rehomes old moved h) {σ : ValueId → ValueId}
    (known : ∀ v ∈ inst.operands, g.Has v) (kept : ∀ v, σ v = v ∨ (moved i v ∧ h.Clear old (σ v)))
    (sums : ∀ v, moved i v → (∃ op lhs rhs, inst = .binary op lhs rhs) → v ∈ g.addressOperands inst)
    (operand : w ∈ h.addressOperands (inst.mapOperands σ)) : h.Clear old w ∨ w ∈ g.addressOperands inst := by
  have still (v : ValueId) (inside : v ∈ g.addressOperands inst) : h.Clear old (σ v) ∨ σ v ∈ g.addressOperands inst := by
    rcases kept v with same | ⟨-, clear⟩
    · exact .inr (same.symm ▸ inside)
    · exact .inl clear
  cases inst with
  | cast op arg ty =>
    rw [Inst.mapOperands, Graph.addressOperands] at operand
    split at operand
    next traced =>
      obtain rfl := List.mem_singleton.mp operand
      exact still arg (by rw [Graph.addressOperands, if_pos traced]; exact List.mem_singleton_self arg)
    next => cases operand
  | gep base path =>
    obtain rfl := List.mem_singleton.mp operand
    exact still base (List.mem_singleton_self base)
  | phi incoming ty =>
    rw [Inst.mapOperands, Graph.addressOperands, List.map_map] at operand
    obtain ⟨e, inside, rfl⟩ := List.mem_map.mp operand
    exact still e.1 (List.mem_map_of_mem inside)
  | binary op lhs rhs =>
    have sum : w = σ lhs ∧ (h.isImm (σ lhs) != h.isImm (σ rhs)) = true ∧ (op = .add ∨ op = .sub) := by
      cases op
      case add | sub =>
        rw [Inst.mapOperands, Graph.addressOperands] at operand
        split at operand
        next differ => exact ⟨List.mem_singleton.mp operand, differ, by simp⟩
        next => cases operand
      all_goals cases operand
    obtain ⟨rfl, differ, isSum⟩ := sum
    have first : g.addressOperands (.binary op lhs rhs) = if g.isImm lhs != g.isImm rhs then [lhs] else [] := by
      rcases isSum with rfl | rfl <;> rfl
    have left := rehomes.isImm_eq (known lhs List.mem_cons_self)
    have right := rehomes.isImm_eq (known rhs (List.mem_cons_of_mem _ List.mem_cons_self))
    rcases kept lhs with same | ⟨-, clear⟩
    · rw [same, left] at differ
      rw [same]
      rcases kept rhs with other | ⟨here, -⟩
      · rw [other, right] at differ
        rw [first, if_pos differ]
        exact .inr (List.mem_singleton_self lhs)
      -- A constant that got a home was the address of the sum, so the other operand is the same constant.
      · have address := sums rhs here ⟨op, lhs, rhs, rfl⟩
        rw [first] at address
        split at address
        next apart =>
          obtain rfl := List.mem_singleton.mp address
          simp at apart
        next => cases address
    · exact .inl clear
  | _ => cases operand

theorem Rehomes.sources (rehomes : g.Rehomes g.insts.size moved h) {traced : Use → Prop}
    (known : ∀ i, ∀ v ∈ g.operands i, g.Has v) (used : ∀ use, traced use → use.2 ∈ g.operands use.1)
    (next : ∀ use, traced use → ∀ source ∈ g.sources use, traced source)
    (sums : ∀ i inst v, g.inst? i = some inst → moved i v → (∃ op lhs rhs, inst = .binary op lhs rhs) →
      v ∈ g.addressOperands inst)
    (retraced : Retraced g.insts.size traced h use) : ∀ source ∈ h.sources use, Retraced g.insts.size traced h source := by
  rcases retraced with escapes | ⟨before, -⟩
  · exact fun source member => .inl (rehomes.sources_escape escapes source member)
  · intro source member
    obtain ⟨inst, made, found, operand⟩ := mem_sources.mp member
    rcases rehomes.made (known _ _ (used use before)) made with clear | ⟨made, old, there⟩
    · exact .inl (rehomes.sources_escape clear.escapes source member)
    · obtain ⟨σ, after, kept⟩ := rehomes.inst _ old there
      cases found.symm.trans after
      have present (v : ValueId) (inside : v ∈ old.operands) : g.Has v := known _ v (mem_operands.mpr ⟨old, there, inside⟩)
      rcases rehomes.addressOperands present kept (fun v => sums _ old v there) operand with clear | same
      · exact .inl clear.escapes
      · refine .inr ⟨next use before source (mem_sources.mpr ⟨old, made, there, same⟩), ?_⟩
        exact mem_operands.mpr ⟨_, found, mem_operands_of_addressOperands operand⟩

theorem pointee?_isSome {ty : Ty} (ptr : ty.isPtr = true) : ty.pointee?.isSome := by
  cases ty <;> first | rfl | cases ptr

/-- A cast of a pointer was one, unless the cast value leads to no constant. -/
theorem Rehomes.originPtrTy? (rehomes : g.Rehomes g.insts.size moved h) (known : ∀ i, ∀ v ∈ g.operands i, g.Has v)
    (there : g.Has v) (pointer : (h.originPtrTy? v).isSome) :
    h.Escapes g.insts.size v ∨ ∃ ty, g.originPtrTy? v = some ty ∧ ty.isPtr = true := by
  obtain ⟨w, way, isPtr⟩ := originPtrTy?_isSome.mp pointer
  rcases rehomes.castFrom known there way with escapes | ⟨before, inside⟩
  · exact .inl escapes
  · rcases rehomes.ty inside with clear | same
    · exact .inl ⟨w, way, clear⟩
    · rw [same] at isPtr
      obtain ⟨ty, found⟩ := Option.isSome_iff_exists.mp (originPtrTy?_isSome.mpr ⟨w, before, isPtr⟩)
      exact .inr ⟨ty, found, List.find?_some found⟩

end Graph

namespace Module

variable {m n : Module} {start : String} {f g : Func} {moved : InstId → ValueId → Prop} {i : InstId} {use : AddressUse}

theorem intrinsic?_eq (names : ∀ id, n.funcName id = m.funcName id) (start : String) (id : FuncId) :
    n.intrinsic? start id = m.intrinsic? start id := by
  rw [intrinsic?, names, intrinsic?]

/-- A use was one before, unless it is of what leads to no constant. -/
theorem UsedBy.before {inst : Inst} (used : n.UsedBy start g.graph use inst) (found : g.graph.inst? use.user = some inst)
    (names : ∀ id, n.funcName id = m.funcName id) (rehomes : f.graph.Rehomes f.graph.insts.size moved g.graph)
    (known : ∀ i, ∀ v ∈ f.graph.operands i, f.graph.Has v) : g.graph.Escapes f.graph.insts.size use.address ∨
      ∃ before old, before.user = use.user ∧ before.address = use.address ∧ f.graph.inst? use.user = some old ∧
        m.UsedBy start f.graph before old := by
  rcases rehomes.inst_cases found with lays | ⟨old, σ, there, rfl, kept⟩
  · -- What is laid computes an address of pointers, and calls nothing.
    cases used with
    | intrinsic => cases lays.isCall
    | pointer i arg pointee => exact .inl (lays.clear arg rfl).escapes
    | recast i ty origin points => exact .inl (lays.clear _ rfl).escapes
    | argument => cases lays.isCall
  · cases old with
    | call callee args ret =>
      cases used with
      | intrinsic i named memory second =>
        rw [List.getElem?_map] at second
        obtain ⟨address, before, rfl⟩ := Option.map_eq_some_iff.mp second
        rw [intrinsic?_eq names] at named
        rcases kept address with same | ⟨-, clear⟩
        · exact .inr ⟨⟨i, address, _, _⟩, _, rfl, same.symm, there, .intrinsic i named memory before⟩
        · exact .inl clear.escapes
      | argument i named inside points =>
        obtain ⟨v, before, rfl⟩ := List.mem_map.mp inside
        rw [intrinsic?_eq names] at named
        rcases kept v with same | ⟨-, clear⟩
        · rw [same] at points ⊢
          have has := known i v (Graph.mem_operands.mpr ⟨_, there, before⟩)
          refine (rehomes.ty has).imp Graph.Clear.escapes fun sameTy => ?_
          rw [sameTy] at points
          exact ⟨⟨i, v, _, _⟩, _, rfl, rfl, there, .argument i named before points⟩
        · exact .inl clear.escapes
    | cast op arg ty =>
      have inside : arg ∈ (Inst.cast op arg ty).operands := List.mem_singleton_self arg
      rcases kept arg with same | ⟨-, clear⟩
      · cases used with
        | pointer i _ pointee => exact .inr ⟨⟨i, arg, pointee, .plain⟩, _, rfl, same.symm, there, .pointer i arg pointee⟩
        | recast i ty pointer points =>
          rw [same] at pointer ⊢
          have has := known i arg (Graph.mem_operands.mpr ⟨_, there, inside⟩)
          refine (rehomes.originPtrTy? known has (by rw [pointer]; rfl)).imp_right ?_
          rintro ⟨before, origin, isPtr⟩
          obtain ⟨pointee, points⟩ := Option.isSome_iff_exists.mp (Graph.pointee?_isSome isPtr)
          exact ⟨⟨i, arg, pointee, .plain⟩, _, rfl, rfl, there, .recast i ty origin points⟩
      · cases used <;> exact .inl clear.escapes
    | _ => cases used

theorem addressUses_before (names : ∀ id, n.funcName id = m.funcName id)
    (rehomes : f.Rehomes f.graph.insts.size moved g) (known : ∀ i, ∀ v ∈ f.graph.operands i, f.graph.Has v)
    (member : use ∈ n.addressUses start g) : g.graph.Escapes f.graph.insts.size use.address ∨
      ∃ before ∈ m.addressUses start f, before.user = use.user ∧ before.address = use.address := by
  obtain ⟨listed, inst, found, used⟩ := mem_addressUses.mp member
  refine (used.before found names rehomes.graph known).imp_right ?_
  rintro ⟨before, old, user, address, there, was⟩
  have still : use.user ∈ f.code :=
    (rehomes.code use.user listed).resolve_right (Nat.not_le_of_lt (Graph.inst?_lt there))
  rw [← user] at still there
  exact ⟨before, mem_addressUses.mpr ⟨still, old, there, was⟩, user, address⟩

end Module

end VarRecovery
