import VarRecovery.Proofs.Access.Lowering
import VarRecovery.Proofs.Access.Materialize
import VarRecovery.Proofs.Code.Form

/-!
Materializing expressions and lowering calls keep the form of code. A program that was lowered has no call left that
is lowered, so to lower it again changes nothing.
-/

set_option autoImplicit false

namespace VarRecovery

theorem Inst.form_withOperands {inst : Inst} {vs : List ValueId} (count : vs.length = inst.operands.length) :
    (inst.withOperands vs).form = inst.form := by
  unfold withOperands
  split
  case h_7 => simp_all [form, mapOperands, operands]
  case h_10 incoming ty =>
    have length : vs.length = incoming.length := by simpa [operands] using count
    simp only [form, mapOperands, phi.injEq, and_true]
    refine List.ext_getElem (by simp [length]) fun n _ _ => ?_
    simp
  all_goals simp_all [form, mapOperands, operands]

namespace Func

variable {f : Func} {call : InstId} {inst : Inst}

/-! ### Materializing -/

theorem keepsForm_materializeValue (depth : Nat) (f : Func) (v : ValueId) (anchor : InstId) :
    f.KeepsForm (materializeValue depth f v anchor).1 := by
  induction depth generalizing f v with
  | zero => exact .refl f
  | succ depth ih =>
    unfold materializeValue
    split
    next op arg ty _ => exact (ih f arg).trans (keepsForm_insert (isInner_before _ anchor) rfl rfl ty)
    next op lhs rhs ty _ =>
      exact ((ih f lhs).trans (ih _ rhs)).trans (keepsForm_insert (isInner_before _ anchor) rfl rfl ty)
    next => exact .refl f

theorem keepsForm_materializeOperands (depth : Nat) (f : Func) (uses : List (ValueId × Option InstId)) :
    f.KeepsForm (materializeOperands depth f uses).1 ∧ (materializeOperands depth f uses).2.length = uses.length := by
  induction uses generalizing f with
  | nil => exact ⟨.refl f, rfl⟩
  | cons u rest ih =>
    obtain ⟨v, anchor⟩ := u
    unfold materializeOperands
    cases anchor with
    | none =>
      obtain ⟨keeps, length⟩ := ih f
      exact ⟨keeps, congrArg (· + 1) length⟩
    | some anchor =>
      obtain ⟨keeps, length⟩ := ih (materializeValue depth f v anchor).1
      exact ⟨(keepsForm_materializeValue depth f v anchor).trans keeps, congrArg (· + 1) length⟩

theorem length_anchors (f : Func) (i : InstId) (inst : Inst) : (f.anchors i inst).length = inst.operands.length := by
  unfold anchors
  split <;> simp [Inst.operands]

theorem keepsForm_materializeInst (f : Func) (i : InstId) : f.KeepsForm (f.materializeInst i) := by
  unfold materializeInst
  split
  next => exact .refl f
  next inst found =>
    split
    next =>
      obtain ⟨keeps, length⟩ := keepsForm_materializeOperands f.graph.values.size f (f.anchors i inst)
      obtain ⟨other, after, same⟩ := keeps.graph.form i inst found
      refine keeps.trans (keepsForm_setInst after ?_)
      exact (Inst.form_withOperands (length.trans (f.length_anchors i inst))).trans same.symm
    next => exact .refl f

theorem keepsForm_materialize (f : Func) : f.KeepsForm f.materialize := by
  have whole (is : List InstId) (g : Func) (so_far : f.KeepsForm g) : f.KeepsForm (is.foldl materializeInst g) := by
    induction is generalizing g with
    | nil => exact so_far
    | cons i is ih => exact ih _ (so_far.trans (keepsForm_materializeInst g i))
  exact whole f.code f (.refl f)

/-! ### Lowering -/

theorem keepsForm_accessPointer (f : Func) (call : InstId) (address : ValueId) (ty : Ty) :
    f.KeepsForm (f.accessPointer call address ty).1 := by
  unfold accessPointer
  split
  next =>
    split
    next => exact .refl f
    next => exact keepsForm_insert (isInner_before _ call) rfl rfl _
  next => exact keepsForm_insert (isInner_before _ call) rfl rfl _

theorem keepsForm_forwardResult (f : Func) (call : InstId) (v : ValueId) : f.KeepsForm (f.forwardResult call v) := by
  unfold forwardResult
  split
  next result _ => exact f.keepsForm_replaceUses result v
  next => exact .refl f

theorem keepsForm_lowerToLoad (f : Func) (call : InstId) (width : AccessWidth) :
    f.KeepsForm (f.lowerToLoad call width).1 := by
  unfold lowerToLoad
  have pointed := f.keepsForm_accessPointer call (f.argument call 1) width.ty
  generalize f.accessPointer call (f.argument call 1) width.ty = access at pointed
  obtain ⟨f₁, ptr, source⟩ := access
  have read : f.KeepsForm (f₁.insert (.load ptr width.ty) width.ty (.before call)).1 :=
    pointed.trans (keepsForm_insert (isInner_before _ call) rfl rfl _)
  dsimp only
  generalize f₁.insert (.load ptr width.ty) width.ty (.before call) = loaded at read
  obtain ⟨f₂, value⟩ := loaded
  have forwarded (f₃ : Func) (v : ValueId) (extended : f₂.KeepsForm f₃) : f.KeepsForm (f₃.forwardResult call v) :=
    (read.trans extended).trans (keepsForm_forwardResult f₃ call v)
  split
  next => exact read
  next result _ =>
    have cut : f₂.KeepsForm (f₂.insert (.cast .fpTrunc value (f₂.graph.ty result)) (f₂.graph.ty result) (.before call)).1 :=
      keepsForm_insert (isInner_before _ call) rfl rfl _
    dsimp only
    split
    next => exact forwarded _ _ cut
    next => exact forwarded f₂ value (.refl f₂)

theorem keepsForm_lowerToStore (f : Func) (call : InstId) (width : AccessWidth) :
    f.KeepsForm (f.lowerToStore call width).1 := by
  unfold lowerToStore
  have pointed := f.keepsForm_accessPointer call (f.argument call 1) width.ty
  generalize f.accessPointer call (f.argument call 1) width.ty = access at pointed
  obtain ⟨f₁, ptr, source⟩ := access
  have written (f₂ : Func) (value : ValueId) (extended : f₁.KeepsForm f₂) :
      f.KeepsForm ((f₂.insertInst (.store ptr value) (.before call)).1.forwardResult call
        ((f₂.insertInst (.store ptr value) (.before call)).1.argument call 0)) :=
    ((pointed.trans extended).trans (keepsForm_insertInst (isInner_before _ call) rfl rfl)).trans
      (keepsForm_forwardResult _ call _)
  dsimp only
  split
  next => exact written _ _ (keepsForm_insert (isInner_before _ call) rfl rfl _)
  next => exact written f₁ _ (.refl f₁)

/-- A call ends no block, so it may be taken out. -/
theorem keepsForm_lowerCall (found : f.graph.inst? call = some inst) (isCall : inst.isCall) (intrinsic : Intrinsic) :
    f.KeepsForm (f.lowerCall call intrinsic).1 ∧ call ∉ (f.lowerCall call intrinsic).1.code := by
  have gone {g : Func} (written : f.KeepsForm g) : f.KeepsForm (g.remove call) ∧ call ∉ (g.remove call).code := by
    obtain ⟨other, after, same⟩ := written.graph.form call inst found
    have inner : other.isTerminator = false := by
      rw [Inst.isTerminator_of_form same]
      cases inst <;> first | rfl | cases isCall
    exact ⟨written.trans (keepsForm_remove after inner), fun listed => (mem_code_remove.mp listed).2 rfl⟩
  unfold lowerCall
  cases intrinsic with
  | readMemory width => exact gone (f.keepsForm_lowerToLoad call width)
  | writeMemory width => exact gone (f.keepsForm_lowerToStore call width)
  | _ => exact gone (f.keepsForm_forwardResult call _)

end Func

namespace LoweredCall

/-- The call is there, listed or not. -/
def IsCall (m : Module) (c : LoweredCall) : Prop :=
  ∃ f inst, m.func? c.func = some f ∧ f.graph.inst? c.inst = some inst ∧ inst.isCall

variable {fixed : Prop} {m n : Module} {c : LoweredCall}

theorem IsCall.keep (isCall : c.IsCall m) (keeps : m.KeepsForm fixed n) : c.IsCall n := by
  obtain ⟨f, inst, found, known, call⟩ := isCall
  obtain ⟨g, after, kept⟩ := keeps.func _ f found
  obtain ⟨other, there, same⟩ := kept.graph.form _ inst known
  refine ⟨g, other, after, there, ?_⟩
  cases inst with
  | call callee args ret =>
    obtain ⟨values, rfl, -⟩ := Inst.call_of_form same
    rfl
  | _ => cases call

/-- What is not listed does not come back. -/
theorem IsCall.unlisted (isCall : c.IsCall m) (keeps : m.KeepsForm fixed n) (absent : ¬m.Lists c.func c.inst) :
    ¬n.Lists c.func c.inst := by
  obtain ⟨f, inst, found, known, -⟩ := isCall
  obtain ⟨g, after, kept⟩ := keeps.func _ f found
  rintro ⟨_, again, listed⟩
  cases after.symm.trans again
  have inside : f.graph.insts.size ≤ c.inst.index := (kept.code _ listed).resolve_left fun old => absent ⟨f, found, old⟩
  exact Nat.not_lt_of_le inside (Graph.inst?_lt known)

end LoweredCall

namespace Lowering

variable {fixed : Prop} {l : Lowering} {c : LoweredCall} {calls : List LoweredCall}

theorem addCall_keepsForm (isCall : c.IsCall l.module) :
    l.module.KeepsForm fixed (l.addCall c).module ∧ ¬(l.addCall c).module.Lists c.func c.inst := by
  obtain ⟨f, inst, found, known, call⟩ := isCall
  obtain ⟨keeps, gone⟩ := Func.keepsForm_lowerCall known call c.intrinsic
  unfold addCall
  simp only [found]
  refine ⟨.updateFunc found keeps, ?_⟩
  rintro ⟨g, after, listed⟩
  cases (Module.func?_updateFunc_self found _).symm.trans after
  exact gone listed

theorem foldl_addCall_keepsForm (isCall : ∀ c ∈ calls, c.IsCall l.module) :
    l.module.KeepsForm fixed (calls.foldl addCall l).module ∧
      ∀ c ∈ calls, ¬(calls.foldl addCall l).module.Lists c.func c.inst := by
  induction calls generalizing l with
  | nil => exact ⟨.refl _, nofun⟩
  | cons c calls ih =>
    obtain ⟨here, rest⟩ := List.forall_mem_cons.mp isCall
    obtain ⟨first, gone⟩ := addCall_keepsForm here
    obtain ⟨others, all⟩ := ih fun d member => (rest d member).keep first
    exact ⟨first.trans others, List.forall_mem_cons.mpr ⟨(here.keep first).unlisted others gone, all⟩⟩

end Lowering

namespace Module

variable {fixed : Prop} {m n : Module} {start : String} {id : FuncId}

theorem KeepsForm.funcName (keeps : m.KeepsForm fixed n) (id : FuncId) : n.funcName id = m.funcName id := by
  rw [Module.funcName, Module.funcName]
  cases found : m.func? id with
  | none =>
    have absent : n.func? id = none :=
      Option.not_isSome_iff_eq_none.mp fun there => by simpa [found] using keeps.known id there
    rw [absent]
  | some f =>
    obtain ⟨g, after, kept⟩ := keeps.func id f found
    rw [after, Option.map_some, Option.map_some, kept.signature]

theorem keepsForm_materialize (m : Module) : m.KeepsForm fixed m.materialize := by
  have whole (ids : List FuncId) (n : Module) (so_far : m.KeepsForm fixed n) :
      m.KeepsForm fixed (ids.foldl (fun m f => m.updateFunc f Func.materialize) n) := by
    induction ids generalizing n with
    | nil => exact so_far
    | cons id ids ih => exact ih _ (so_far.trans (.change Func.keepsForm_materialize n id))
  exact whole m.definedFuncs m (.refl m)

theorem collect_keepsForm {image : Image} {cells : Cells} (h : m.collect image start = .ok (n, cells)) :
    m.KeepsForm fixed n := by
  obtain ⟨c, -, done⟩ := Recovering.bind_eq_ok h
  cases done
  exact m.keepsForm_materialize

/-- No call is listed that lowering would take out. -/
def IsLowered (m : Module) (start : String) : Prop :=
  ∀ id f, m.func? id = some f → ∀ i ∈ f.code, ∀ callee args ret, f.graph.inst? i = some (.call callee args ret) →
    ∀ intrinsic, m.intrinsic? start callee = some intrinsic → intrinsic.isLowered = false

theorem lower_of_isLowered (lowered : m.IsLowered start) : m.lower start = .ok ⟨m, 0, []⟩ := by
  have none_ : ∀ x ∈ m.allCode, m.loweredCall? start x.1 (m.graph x.1) x.2 = .ok none := by
    rintro ⟨id, i⟩ member
    obtain ⟨f, found, listed⟩ := mem_allCode.mp member
    rw [graph_of_func? found, loweredCall?]
    split
    next callee args ret call =>
      split
      next => rfl
      next intrinsic known =>
        rw [lowered id f found i listed callee args ret call intrinsic known]
        rfl
    next => rfl
  rw [lower, loweredCalls, Recovering.mapM_eq_map none_]
  simp [pure, Except.pure, bind, Except.bind]

theorem loweredCall?_eq_none {f : FuncId} {g : Graph} {i : InstId} {callee : FuncId} {args : List ValueId} {ret : Ty}
    (found : m.loweredCall? start f g i = .ok none) (call : g.inst? i = some (.call callee args ret)) {intrinsic : Intrinsic}
    (known : m.intrinsic? start callee = some intrinsic) : intrinsic.isLowered = false := by
  simp only [loweredCall?, call, known] at found
  split at found
  next plain => simpa using plain
  next =>
    split at found
    next => cases found
    next => split at found <;> cases found

theorem lower_keepsForm {l : Lowering} (h : m.lower start = .ok l) :
    m.KeepsForm fixed l.module ∧ l.module.IsLowered start := by
  obtain ⟨calls, found, done⟩ := Recovering.bind_eq_ok h
  cases done
  obtain ⟨all, looked, done⟩ := Recovering.bind_eq_ok found
  cases done
  obtain ⟨keys, calls⟩ := mapM_lowered (fun x c here => (loweredCall?_eq_some here).1) looked
  have isCall : ∀ c ∈ all.filterMap id, c.IsCall m := by
    intro c member
    obtain ⟨f, known, -⟩ := mem_allCode.mp (keys.subset (List.mem_map_of_mem member))
    obtain ⟨-, callee, args, ret, call, -⟩ := loweredCall?_eq_some (calls c member)
    exact ⟨f, _, known, graph_of_func? known ▸ call, rfl⟩
  obtain ⟨keeps, gone⟩ := Lowering.foldl_addCall_keepsForm (l := ⟨m, 0, []⟩) isCall
  refine ⟨keeps, fun j g after i listed callee args ret call intrinsic known => ?_⟩
  obtain ⟨f, before⟩ := Option.isSome_iff_exists.mp (keeps.known j (by rw [after]; rfl))
  obtain ⟨g', again, kept⟩ := keeps.func j f before
  cases after.symm.trans again
  obtain ⟨old, inst, there, same⟩ := kept.known listed call (.inl rfl)
  obtain ⟨values, rfl, -⟩ := Inst.call_of_form same.symm
  -- A call that was there is either taken out or none that is lowered.
  obtain ⟨c, among, here⟩ := Recovering.mapM_ok looked (mem_allCode.mpr ⟨f, before, old⟩)
  have here : m.loweredCall? start j f.graph i = .ok c := graph_of_func? before ▸ here
  cases c with
  | none =>
    refine loweredCall?_eq_none here there ?_
    rwa [intrinsic?, keeps.funcName] at known
  | some c =>
    obtain ⟨key, -⟩ := loweredCall?_eq_some here
    obtain ⟨func, inst⟩ := Prod.mk.inj key
    refine absurd ⟨g, ?_, ?_⟩ (gone c (List.mem_filterMap.mpr ⟨some c, among, rfl⟩))
    · rwa [func]
    · rwa [inst]

end Module

end VarRecovery
