import VarRecovery.Proofs.Access.Lowering
import VarRecovery.Proofs.Pointer.Frontier
import VarRecovery.Proofs.Region.EntityTable
import VarRecovery.Recovery

/-!
The pointers to the entities of a table, in a program that was simplified: they were pointers to its entities before.
-/

set_option autoImplicit false

namespace VarRecovery

namespace EntityTable

/-- An entity of the table, wherever it is. -/
def Contains (t : EntityTable) (e : Entity) : Prop :=
  ∃ a, t.get? a = some e

theorem mem_entries {t : EntityTable} {a : Nat} {e : Entity} : (a, e) ∈ t.entries ↔ t.get? a = some e := by
  unfold entries
  rw [get?_eq_some, List.mem_map]
  constructor
  · rintro ⟨⟨b, entity, size⟩, member, same⟩
    cases same
    exact ⟨size, AddressMap.find?_eq_some_iff.mpr member⟩
  · rintro ⟨size, found⟩
    exact ⟨(a, e, size), AddressMap.find?_eq_some_iff.mp found, rfl⟩

end EntityTable

namespace Module

variable {m n : Module} {t u : EntityTable} {id : FuncId} {f g : Func} {v : ValueId}

theorem mem_placedFuncs : id ∈ placedFuncs t ↔ t.Contains (.func id) := by
  unfold placedFuncs
  rw [List.mem_filterMap]
  constructor
  · rintro ⟨⟨a, e⟩, member, same⟩
    cases e <;> cases same
    exact ⟨a, EntityTable.mem_entries.mp member⟩
  · rintro ⟨a, found⟩
    exact ⟨(a, .func id), EntityTable.mem_entries.mpr found, rfl⟩

theorem mem_variablePointers : (id, v) ∈ m.variablePointers t ↔
    ∃ var, t.Contains (.var var) ∧ id ∈ m.funcIds ∧ m.pointerTo? id var = some v := by
  unfold variablePointers
  rw [List.mem_flatMap]
  constructor
  · rintro ⟨⟨a, e⟩, member, inside⟩
    cases e with
    | func => cases inside
    | var var =>
      obtain ⟨other, known, same⟩ := List.mem_filterMap.mp inside
      obtain ⟨w, pointer, same⟩ := Option.map_eq_some_iff.mp same
      cases same
      exact ⟨var, ⟨a, EntityTable.mem_entries.mp member⟩, known, pointer⟩
  · rintro ⟨var, ⟨a, found⟩, known, pointer⟩
    refine ⟨(a, .var var), EntityTable.mem_entries.mpr found, List.mem_filterMap.mpr ⟨id, known, ?_⟩⟩
    rw [pointer, Option.map_some]

/-! ### After simplification -/

theorem Reworks.funcIds (reworks : m.Reworks n) (member : id ∈ n.funcIds) : id ∈ m.funcIds := by
  obtain ⟨i, inside, rfl⟩ := List.mem_map.mp member
  have there : (m.func? ⟨i⟩).isSome := reworks.known ⟨i⟩ (by simpa [func?] using List.mem_range.mp inside)
  refine List.mem_map.mpr ⟨i, List.mem_range.mpr ?_, rfl⟩
  simpa [func?] using there

/-- No address of a variable is new, and those that were there keep their numbers. -/
theorem Reworks.pointerTo? (reworks : m.Reworks n) {var : GlobalId} (pointer : n.pointerTo? id var = some v) :
    m.pointerTo? id var = some v := by
  unfold Module.pointerTo? at pointer ⊢
  obtain ⟨i, found, rfl⟩ := Option.map_eq_some_iff.mp pointer
  refine Option.map_eq_some_iff.mpr ⟨i, ?_, rfl⟩
  rw [Array.findIdx?_eq_some_iff_getElem] at found ⊢
  obtain ⟨inside, here, first⟩ := found
  cases known : n.func? id with
  | none => simp [graph, known, Graph.empty] at inside
  | some g =>
    obtain ⟨f, before, same⟩ := reworks.before known
    simp only [graph_of_func? known, graph_of_func? before] at inside here first ⊢
    have found : g.graph.value? ⟨i⟩ = some g.graph.values[i] := Array.getElem?_eq_getElem inside
    -- New values are constants and results, so the address of a variable was there.
    have old : i < f.graph.values.size := by
      refine Nat.lt_of_not_le fun outside => ?_
      rcases same.fresh ⟨i⟩ _ found (Array.getElem?_eq_none outside) with ⟨imm, fresh⟩ | ⟨j, ty, fresh⟩
      · simp [fresh] at here
      · simp [fresh] at here
    have stays (j : Nat) (lt : j < f.graph.values.size) (lt' : j < g.graph.values.size) :
        g.graph.values[j] = f.graph.values[j] := by
      have after := same.graph.value ⟨j⟩ _ (Array.getElem?_eq_getElem lt)
      exact Option.some.inj ((Array.getElem?_eq_getElem lt').symm.trans after)
    refine ⟨old, stays i old inside ▸ here, fun j before => ?_⟩
    exact stays j (Nat.lt_trans before old) (Nat.lt_trans before inside) ▸ first j before

theorem Reworks.pointerArgs (reworks : m.Reworks n)
    (args : ∀ id f, m.func? id = some f → ∀ v ∈ f.args, f.graph.Has v) (id : FuncId) :
    n.pointerArgs id = m.pointerArgs id := by
  unfold Module.pointerArgs
  cases before : m.func? id with
  | none =>
    have absent : n.func? id = none := Option.not_isSome_iff_eq_none.mp fun there => by
      simpa [before] using reworks.known id there
    rw [absent]
  | some f =>
    obtain ⟨g, after, same⟩ := reworks.func id f before
    have body : g.hasBody = f.hasBody := by rw [Func.hasBody, Listing.entry?, same.blocks, Func.hasBody, Listing.entry?]
    -- Values keep their types, so the arguments that are pointers are the same.
    have pointers : (f.args.filter fun v => (g.graph.ty v).isPtr) = f.args.filter fun v => (f.graph.ty v).isPtr :=
      List.filter_congr fun v member => by rw [same.graph.ty (args id f before v member)]
    simp only [after, body, same.args, pointers]

theorem Reworks.pointerResult? (reworks : m.Reworks n) (valid : ∀ id f, m.func? id = some f → f.Valid)
    {callees others : List FuncId} (subset : callees ⊆ others) {i : InstId} (listed : n.Lists id i)
    {p : FuncId × ValueId} (result : n.pointerResult? callees id i = some p) :
    m.Lists id i ∧ m.pointerResult? others id i = some p := by
  obtain ⟨g, known, inside⟩ := listed
  obtain ⟨f, before, same⟩ := reworks.before known
  unfold Module.pointerResult? at result ⊢
  simp only [graph_of_func? known, graph_of_func? before] at result ⊢
  split at result
  next callee args ret call =>
    obtain ⟨old, values, there, -⟩ := same.call inside call
    split at result
    next placed =>
      split at result
      next w made =>
        have made : f.graph.result? i = some w := by rwa [← same.graph.result i (Graph.inst?_lt there)]
        rw [same.graph.ty ((valid id f before).graph.result_lt made).2] at result
        refine ⟨⟨f, before, old⟩, ?_⟩
        simpa only [there, if_pos (subset placed), made] using result
      next => cases result
    next => cases result
  next => cases result

/-- Of the entities that a table holds, simplification leaves no pointers but those that there were. -/
theorem Reworks.entityPointers (reworks : m.Reworks n) (valid : ∀ id f, m.func? id = some f → f.Valid)
    (args : ∀ id f, m.func? id = some f → ∀ v ∈ f.args, f.graph.Has v) (held : ∀ e, u.Contains e → t.Contains e) :
    n.entityPointers u ⊆ m.entityPointers t := by
  have placed : placedFuncs u ⊆ placedFuncs t := fun f member =>
    mem_placedFuncs.mpr (held _ (mem_placedFuncs.mp member))
  unfold Module.entityPointers
  dsimp only
  refine fun p member => ?_
  simp only [List.mem_append] at member ⊢
  rcases member with (variables_ | arguments) | results
  · obtain ⟨var, holds, known, pointer⟩ := mem_variablePointers.mp variables_
    exact .inl (.inl (mem_variablePointers.mpr ⟨var, held _ holds, reworks.funcIds known, reworks.pointerTo? pointer⟩))
  · obtain ⟨f, member, inside⟩ := List.mem_flatMap.mp arguments
    exact .inl (.inr (List.mem_flatMap.mpr ⟨f, placed member, reworks.pointerArgs args f ▸ inside⟩))
  · obtain ⟨⟨id, i⟩, listed, result⟩ := List.mem_filterMap.mp results
    obtain ⟨before, same⟩ := reworks.pointerResult? valid placed (mem_allCode.mp listed) result
    exact .inr (List.mem_filterMap.mpr ⟨(id, i), mem_allCode.mpr before, same⟩)

end Module

end VarRecovery
