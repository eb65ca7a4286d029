import Mathlib.Data.List.Nodup
import VarRecovery.Code.Module
import VarRecovery.Proofs.Code.Graph

/-!
Programs in which functions change.
-/

set_option autoImplicit false

namespace VarRecovery

attribute [ext] FuncId GlobalId

namespace Module

variable {m : Module}

theorem func?_updateFunc (m : Module) (id j : FuncId) (change : Func → Func) :
    (m.updateFunc id change).func? j = if j = id then (m.func? j).map change else m.func? j := by
  simp only [updateFunc, func?, Array.getElem?_modify]
  by_cases same : j = id
  · simp [same]
  · have differ : ¬id.index = j.index := fun index => same (by cases id; cases j; simp_all)
    simp [same, differ]

theorem func?_updateFunc_self {id : FuncId} {f : Func} (found : m.func? id = some f) (change : Func → Func) :
    (m.updateFunc id change).func? id = some (change f) := by
  rw [func?_updateFunc, if_pos rfl, found]
  rfl

theorem updateFunc_congr {id : FuncId} {change : Func → Func} (other : Func → Func)
    (same : ∀ f, m.func? id = some f → change f = other f) :
    m.updateFunc id change = m.updateFunc id other := by
  have funcs : m.funcs.modify id.index change = m.funcs.modify id.index other := by
    refine Array.ext_getElem? fun j => ?_
    rw [Array.getElem?_modify, Array.getElem?_modify]
    split
    next here =>
      subst here
      cases found : m.funcs[id.index]? with
      | none => rfl
      | some f => exact congrArg some (same f found)
    next => rfl
  rw [updateFunc, funcs, updateFunc]

theorem updateFunc_id (m : Module) (id : FuncId) : m.updateFunc id (fun f => f) = m := by
  have funcs : m.funcs.modify id.index (fun f => f) = m.funcs := by
    refine Array.ext_getElem? fun j => ?_
    rw [Array.getElem?_modify]
    split <;> simp
  rw [updateFunc, funcs]

theorem graph_of_func? {id : FuncId} {f : Func} (found : m.func? id = some f) : m.graph id = f.graph := by
  rw [graph, found]
  rfl

theorem isSome_func?_of_imm? {id : FuncId} {v : ValueId} {i : Imm} (found : (m.graph id).imm? v = some i) :
    (m.func? id).isSome := by
  cases known : m.func? id with
  | some f => rfl
  | none => simp [graph, known, Graph.empty, Graph.imm?, Graph.value?] at found

theorem graph_updateFunc {id : FuncId} {f : Func} (found : m.func? id = some f) (g : Func) (j : FuncId) :
    (m.updateFunc id fun _ => g).graph j = if j = id then g.graph else m.graph j := by
  rw [graph, func?_updateFunc]
  split
  next here => rw [here, found]; rfl
  next => rfl

theorem graph_updateGraph {id : FuncId} {f : Func} (found : m.func? id = some f) (change : Graph → Graph)
    (j : FuncId) :
    (m.updateGraph id change).graph j = if j = id then change (m.graph id) else m.graph j := by
  rw [updateGraph, updateFunc_congr (fun _ => f.updateGraph change) fun g again => ?_]
  · rw [graph_updateFunc found, graph_of_func? found]
    rfl
  · rw [Option.some.inj (found.symm.trans again)]

/-! ### Changes of several functions -/

theorem func?_foldl_updateFunc (change : Func → Func) {ids : List FuncId} (nodup : ids.Nodup) (m : Module)
    (id : FuncId) : (ids.foldl (fun m f => m.updateFunc f change) m).func? id =
      if id ∈ ids then (m.func? id).map change else m.func? id := by
  induction ids generalizing m with
  | nil => rfl
  | cons first ids ih =>
    obtain ⟨absent, nodup⟩ := List.nodup_cons.mp nodup
    rw [List.foldl_cons, ih nodup, func?_updateFunc]
    by_cases here : id = first
    · subst here
      simp [absent]
    · simp [here]

theorem nodup_definedFuncs (m : Module) : m.definedFuncs.Nodup := by
  refine List.Nodup.filter _ (List.Nodup.map (fun a b same => ?_) List.nodup_range)
  exact congrArg FuncId.index same

theorem forall_func_iff {p : Func → Prop} (m : Module) :
    (∀ id f, m.func? id = some f → p f) ↔ ∀ f ∈ m.funcs.toList, p f := by
  constructor
  · intro all f member
    obtain ⟨n, found⟩ := List.mem_iff_getElem?.mp member
    exact all ⟨n⟩ f (by rwa [Array.getElem?_toList] at found)
  · intro all id f found
    refine all f (List.mem_iff_getElem?.mpr ⟨id.index, ?_⟩)
    rwa [Array.getElem?_toList]

theorem mem_definedFuncs {id : FuncId} : id ∈ m.definedFuncs ↔ ∃ f, m.func? id = some f ∧ f.hasBody = true := by
  cases found : m.func? id with
  | none => simp [definedFuncs, found]
  | some f =>
    have inside : id.index < m.funcs.size := (Array.getElem?_eq_some_iff.mp found).1
    simpa [definedFuncs, funcIds, found] using fun _ => ⟨id.index, inside, rfl⟩

end Module

end VarRecovery
