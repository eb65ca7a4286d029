import VarRecovery.Proofs.Region.StackAddresses

/-!
Operands that get homes, by their positions. A search for constants comes to an instruction at certain positions only,
but what gets a home is a value: a constant that an instruction also has at another position is replaced there too.
-/

set_option autoImplicit false

namespace VarRecovery

namespace Graph

variable {g : Graph} {inst : Inst} {v : ValueId}

/-- Where an instruction has the operands that its result may be an address from. -/
def addressPositions (g : Graph) : Inst → List Nat
  | .cast op _ _ => if op.isTraced then [0] else []
  | .gep _ _ => [0]
  | .binary .add lhs rhs | .binary .sub lhs rhs => if g.isImm lhs != g.isImm rhs then [0] else []
  | .phi incoming _ => List.range incoming.length
  | _ => []

theorem exists_addressPosition (operand : v ∈ g.addressOperands inst) :
    ∃ k ∈ g.addressPositions inst, inst.operands[k]? = some v := by
  cases inst with
  | cast op arg ty =>
    by_cases traced : op.isTraced = true <;> simp_all [addressOperands, addressPositions, Inst.operands]
  | gep base path => simp_all [addressOperands, addressPositions, Inst.operands]
  | binary op lhs rhs =>
    by_cases differ : (g.isImm lhs != g.isImm rhs) = true <;> cases op <;>
      simp_all [addressOperands, addressPositions, Inst.operands]
  | phi incoming ty =>
    replace operand : v ∈ incoming.map Prod.fst := operand
    obtain ⟨k, inside, same⟩ := List.mem_iff_getElem.mp operand
    refine ⟨k, List.mem_range.mpr (by simpa using inside), ?_⟩
    rw [Inst.operands, List.getElem?_eq_getElem inside, same]
  | _ => cases operand

end Graph

namespace Module

variable {m : Module} {start : String} {f : Func} {id : FuncId} {i : InstId} {inst : Inst} {v : ValueId} {k : Nat}

/-- Where an instruction has the addresses that it accesses, or may access. -/
def accessPositions (m : Module) (start : String) (g : Graph) : Inst → List Nat
  | .call callee args _ =>
    match m.intrinsic? start callee with
    | some intrinsic => if intrinsic.isMemoryAccess then [1] else []
    | none => (List.range args.length).filter fun k => ((args.map g.ty)[k]?.bind Ty.pointee?).isSome
  | .cast .intToPtr _ (.ptr _) => [0]
  | .cast .bitcast arg (.ptr _) => if (g.originPtrTy? arg).isSome then [0] else []
  | _ => []

/-- A search comes to an instruction at a position: it begins there, or it goes back to it from a use of the result. -/
def ReachedAt (m : Module) (start : String) (id : FuncId) (i : InstId) (k : Nat) : Prop :=
  ∃ f inst, m.func? id = some f ∧ f.graph.inst? i = some inst ∧
    ((f.hasBody = true ∧ i ∈ f.code ∧ k ∈ m.accessPositions start f.graph inst) ∨
      ∃ use, m.Traces start id use ∧ f.graph.definition? use.2 = some i ∧ k ∈ f.graph.addressPositions inst)

/-- The instructions that a search comes to at one of several positions that may hold a constant. -/
inductive HasOthers (m : Module) (start : String) : Inst → Nat → Prop
  | gep (base : ValueId) (path : List ValueId) : HasOthers m start (.gep base path) 0
  | access {callee : FuncId} {intrinsic : Intrinsic} (named : m.intrinsic? start callee = some intrinsic)
    (memory : intrinsic.isMemoryAccess = true) (args : List ValueId) (ret : Ty) :
    HasOthers m start (.call callee args ret) 1

theorem exists_accessPosition {use : AddressUse} (member : use ∈ m.addressUses start f) :
    use.user ∈ f.code ∧ ∃ inst, f.graph.inst? use.user = some inst ∧
      ∃ k ∈ m.accessPositions start f.graph inst, inst.operands[k]? = some use.address := by
  obtain ⟨listed, inst, found, used⟩ := mem_addressUses.mp member
  refine ⟨listed, inst, found, ?_⟩
  cases used with
  | intrinsic i named memory second => exact ⟨1, by simp [accessPositions, named, memory], second⟩
  | pointer i arg pointee => exact ⟨0, by simp [accessPositions], rfl⟩
  | recast i ty known points => exact ⟨0, by simp [accessPositions, known], rfl⟩
  | argument i named inside points =>
    obtain ⟨k, bound, rfl⟩ := List.mem_iff_getElem.mp inside
    exact ⟨k, by simp [accessPositions, named, bound, points], List.getElem?_eq_getElem bound⟩

/-- What is traced is at a position that the search comes to. -/
theorem Traces.reachedAt {use : Graph.Use} (traces : m.Traces start id use) :
    ∃ k, m.ReachedAt start id use.1 k ∧ ((m.graph id).operands use.1)[k]? = some use.2 := by
  obtain ⟨f, found, body, root, member, way⟩ := traces
  rw [graph_of_func? found]
  have operand {i : InstId} {inst : Inst} {k : Nat} {v : ValueId} (known : f.graph.inst? i = some inst)
      (at_ : inst.operands[k]? = some v) : (f.graph.operands i)[k]? = some v := by
    rw [Graph.operands, known]
    exact at_
  rcases way.cases_tail with rfl | ⟨before, path, step⟩
  · obtain ⟨listed, inst, known, k, position, at_⟩ := exists_accessPosition member
    exact ⟨k, ⟨f, inst, found, known, .inl ⟨body, listed, position⟩⟩, operand known at_⟩
  · obtain ⟨inst, made, known, source⟩ := Graph.mem_sources.mp step
    obtain ⟨k, position, at_⟩ := Graph.exists_addressPosition source
    exact ⟨k, ⟨f, inst, found, known, .inr ⟨before, ⟨f, found, body, root, member, path⟩, made, position⟩⟩,
      operand known at_⟩

/-- A constant that a search comes to at one position is at no other, or the search comes to it there as well, unless
the instruction is a gep or accesses memory itself. -/
theorem ReachedAt.elsewhere {p : Nat} (reached : m.ReachedAt start id i p) (found : m.func? id = some f)
    (known : f.graph.inst? i = some inst) (constant : (f.graph.imm? v).isSome) (here : inst.operands[p]? = some v)
    (there : inst.operands[k]? = some v) : m.ReachedAt start id i k ∨ (p ≠ k ∧ m.HasOthers start inst p) := by
  by_cases same : p = k
  · exact .inl (same ▸ reached)
  obtain ⟨imm, constant⟩ := Option.isSome_iff_exists.mp constant
  have again := reached
  obtain ⟨_, _, known', made', ⟨-, -, position⟩ | ⟨use, traces, made, position⟩⟩ := reached
  all_goals
    cases found.symm.trans known'
    cases known.symm.trans made'
  -- The search begins here.
  · cases inst with
    | call callee args ret =>
      cases named : m.intrinsic? start callee with
      | some intrinsic =>
        by_cases memory : intrinsic.isMemoryAccess = true
        · obtain rfl : p = 1 := by simpa [accessPositions, named, memory] using position
          exact .inr ⟨same, .access named memory args ret⟩
        · simp [accessPositions, named, memory] at position
      | none =>
        -- An argument is looked at if it is a pointer, and constants are integers.
        replace here : args[p]? = some v := here
        have integer := Graph.ty_of_imm? constant
        simp [accessPositions, named, here, integer, Ty.pointee?] at position
    | cast op arg ty =>
      have single {j : Nat} (at_ : (Inst.cast op arg ty).operands[j]? = some v) : j = 0 := by
        cases j <;> simp_all [Inst.operands]
      exact absurd ((single here).trans (single there).symm) same
    | _ => simp [accessPositions] at position
  · cases inst with
    | cast op arg ty =>
      have single {j : Nat} (at_ : (Inst.cast op arg ty).operands[j]? = some v) : j = 0 := by
        cases j <;> simp_all [Inst.operands]
      exact absurd ((single here).trans (single there).symm) same
    | gep base path =>
      obtain rfl : p = 0 := by simpa [Graph.addressPositions] using position
      exact .inr ⟨same, .gep base path⟩
    | binary op lhs rhs =>
      -- Of the operands of a sum only the first may be a constant that the search comes to.
      have sum : (f.graph.isImm lhs != f.graph.isImm rhs) = true ∧ p = 0 := by
        cases op <;> simp_all [Graph.addressPositions]
      obtain ⟨differ, rfl⟩ := sum
      have isImm : f.graph.isImm v = true := by rw [Graph.isImm, constant]; rfl
      rcases k with _ | _ | k
      · exact absurd rfl same
      · simp_all [Inst.operands]
      · simp [Inst.operands] at there
    | phi incoming ty =>
      have inside : k < incoming.length := by
        simpa [Inst.operands] using (List.getElem?_eq_some_iff.mp there).1
      exact .inl ⟨f, _, found, known, .inr ⟨use, traces, made, List.mem_range.mpr inside⟩⟩
    | _ => simp [Graph.addressPositions] at position

variable {m₁ m₂ m₃ : Module} {image : Image} {cells : Cells} {t u : EntityTable} {cursor cursor₁ cursor₂ : EntryCursor}
  {fr fr' : Frontier} {globals : BuiltGlobals} {redzone : Nat} {stack : List (FuncId × List Cell)}

/-- Frames and global variables change operands of the code there was only at positions that a search for constants
came to, but for those constants that are at such a position of a gep or of a memory access and at another one too. -/
theorem homes_change_reached_operands (exist : t.Exists m) (chosen : ∀ s ∈ stack, s ∈ cells.stack)
    (collected : m.collect image start = .ok (m₁, cells))
    (framed : (buildFrames image redzone stack m₁ cursor fr).warnings.1 = .ok (m₂, cursor₁, fr'))
    (built : (m₂.buildGlobals t cells.globals cursor₁).warnings.1 = .ok (m₃, u, cursor₂, globals)) :
    ∀ n, n = m₂ ∨ n = m₃ → ∀ id f, m₁.func? id = some f → ∀ i inst, f.graph.inst? i = some inst →
      ∃ σ : ValueId → ValueId, (n.graph id).inst? i = some (inst.mapOperands σ) ∧
        ∀ k v, inst.operands[k]? = some v → σ v ≠ v →
          (∃ use ∈ m₁.addressUses start f, (i, v) ∈ f.graph.traceConstants use.user use.address) ∧
          (m₁.ReachedAt start id i k ∨
            ∃ p, p ≠ k ∧ m₁.ReachedAt start id i p ∧ inst.operands[p]? = some v ∧ m₁.HasOthers start inst p) := by
  have onStack := (collect_stack collected).1
  have inGlobals := collect_globals collected
  obtain ⟨rfl, -⟩ := collect_ok collected
  let moved (id : FuncId) (i : InstId) (v : ValueId) : Prop :=
    m.materialize.Traces start id (i, v) ∧ ((m.materialize.graph id).imm? v).isSome
  have movable {c : Cell} (accesses : m.materialize.Accesses start c) :
      moved c.func c.user c.value ∧ c.IsOperand (m.materialize.graph c.func) := by
    obtain ⟨traces, operand⟩ := accesses.movable
    exact ⟨⟨traces, operand.constant⟩, operand⟩
  -- What a frame or a variable takes the place of is a traced constant.
  have frames : m.materialize.Rehomes m.materialize.counts moved m₂ := by
    obtain ⟨_, framed⟩ := Recovering.warnings_ok framed
    refine (buildFrames_rehomes (fun _ => Nat.le_refl _) (fun s member c inside => ?_) framed).1
    obtain ⟨own, accesses, -⟩ := (onStack s (chosen s member)).2 c inside
    exact own ▸ movable accesses
  have whole : m₂.Rehomes m.materialize.counts moved m₃ := by
    obtain ⟨_, built⟩ := Recovering.warnings_ok built
    refine buildGlobals_rehomes (frames.counts fun _ => Nat.le_refl _)
      (fun a e placed => frames.has (has_materialize (exist a e placed))) (fun c member => ?_) built
    exact (movable (inGlobals c member)).imp_right (frames.graph c.func).isOperand
  intro n either id f found i inst known
  have rehomes : m.materialize.Rehomes m.materialize.counts moved n := by
    rcases either with rfl | rfl
    · exact frames
    · exact frames.trans whole
  have graph := rehomes.graph id
  rw [graph_of_func? found] at graph
  obtain ⟨σ, after, kept⟩ := graph.inst i inst known
  refine ⟨σ, after, fun k v there changed => ?_⟩
  obtain ⟨traces, constant⟩ := ((kept v).resolve_left changed).1
  rw [graph_of_func? found] at constant
  obtain ⟨p, reached, here⟩ := traces.reachedAt
  rw [graph_of_func? found, Graph.operands, known] at here
  refine ⟨?_, (reached.elsewhere found known constant here there).imp_right fun differs =>
    ⟨p, differs.1, reached, here, differs.2⟩⟩
  obtain ⟨g, again, -, root, member, way⟩ := traces
  cases found.symm.trans again
  exact ⟨root, member, Graph.mem_traceConstants.mpr ⟨constant, way⟩⟩

/-- A write of an address to the address itself, and a read of the stack. -/
def selfWrite : Module :=
  let int := Ty.int .i64
  let f := (Func.declare ⟨"f", .exported, [int], .unit, none, false, false⟩ []).addBlock
  let f := (f.addImm (.ofInt .i64 4096)).1
  let f := (f.insert (.call ⟨1⟩ [⟨0⟩, ⟨1⟩, ⟨1⟩] int) int (.bottom ⟨0⟩)).1
  let f := (f.addImm (.ofInt .i64 8192)).1
  let f := (f.insert (.cast .intToPtr ⟨3⟩ (.ptr int)) (.ptr int) (.bottom ⟨0⟩)).1
  let f := (f.insert (.load ⟨4⟩ int) int (.bottom ⟨0⟩)).1
  let f := (f.insertInst (.leave none) (.bottom ⟨0⟩)).1
  { empty ⟨.x86_64, .unknown, .linux⟩ with
    funcs := #[f, .declare ⟨"__relift_write_memory_64", .external, [int, int, int], int, none, false, false⟩ []] }

def selfWriteImage : Image where
  kindAt address := if address = 4096 then .global else if address = 8192 then .stack else .unknown
  stackPointer := some 8200
  funcs := []
  vars := []

/-- An instruction of the first function after frames were built, and after global variables were built too. -/
def homedInst? (m : Module) (image : Image) (start : String) (i : InstId) : Option (Inst × Inst) := do
  let (m₁, cells) ← (m.collect image start).toOption
  let (m₂, cursor, _) ← (buildFrames image 128 cells.stack m₁ .start .empty).warnings.1.toOption
  let (m₃, _) ← (m₂.buildGlobals .empty cells.globals cursor).warnings.1.toOption
  return (← (m₂.graph ⟨0⟩).inst? i, ← (m₃.graph ⟨0⟩).inst? i)

theorem selfWrite_run : ∃ cells m₂ cursor₁ fr m₃ u cursor₂, ∃ globals : BuiltGlobals,
    selfWrite.collect selfWriteImage "__relift_" = .ok (selfWrite.materialize, cells) ∧
    (buildFrames selfWriteImage 128 cells.stack selfWrite.materialize .start .empty).warnings.1 = .ok (m₂, cursor₁, fr) ∧
    (m₂.buildGlobals .empty cells.globals cursor₁).warnings.1 = .ok (m₃, u, cursor₂, globals) ∧
    (m₂.graph ⟨0⟩).inst? ⟨0⟩ = some (.call ⟨1⟩ [⟨0⟩, ⟨1⟩, ⟨1⟩] (.int .i64)) ∧
    (m₃.graph ⟨0⟩).inst? ⟨0⟩ = some (.call ⟨1⟩ [⟨0⟩, ⟨12⟩, ⟨12⟩] (.int .i64)) := by
  have run : selfWrite.homedInst? selfWriteImage "__relift_" ⟨0⟩ =
      some (.call ⟨1⟩ [⟨0⟩, ⟨1⟩, ⟨1⟩] (.int .i64), .call ⟨1⟩ [⟨0⟩, ⟨12⟩, ⟨12⟩] (.int .i64)) := by cbv
  obtain ⟨⟨m₁, cells⟩, first, rest⟩ := Option.bind_eq_some_iff.mp run
  obtain ⟨⟨m₂, cursor₁, fr⟩, second, rest⟩ := Option.bind_eq_some_iff.mp rest
  obtain ⟨⟨m₃, u, cursor₂, globals⟩, third, rest⟩ := Option.bind_eq_some_iff.mp rest
  obtain ⟨framed, one, rest⟩ := Option.bind_eq_some_iff.mp rest
  obtain ⟨built, two, rest⟩ := Option.bind_eq_some_iff.mp rest
  obtain ⟨rfl, rfl⟩ := Prod.mk.inj (Option.some.inj rest)
  have collected := Recovering.ok_of_toOption first
  obtain ⟨rfl, -⟩ := collect_ok collected
  exact ⟨cells, m₂, cursor₁, fr, m₃, u, cursor₂, globals, collected, Recovering.ok_of_toOption second,
    Recovering.ok_of_toOption third, one, two⟩

theorem selfWrite_written : ∃ f, selfWrite.materialize.func? ⟨0⟩ = some f ∧
    f.graph.inst? ⟨0⟩ = some (.call ⟨1⟩ [⟨0⟩, ⟨1⟩, ⟨1⟩] (.int .i64)) ∧
    selfWrite.materialize.accessPositions "__relift_" f.graph (.call ⟨1⟩ [⟨0⟩, ⟨1⟩, ⟨1⟩] (.int .i64)) = [1] := by
  obtain ⟨f, found⟩ := Option.isSome_iff_exists.mp
    (show (selfWrite.materialize.func? ⟨0⟩).isSome = true by decide +kernel)
  have of_all {α : Type} {p : Func → α} {r : α} (h : (selfWrite.materialize.func? ⟨0⟩).map p = some r) : p f = r := by
    rw [found] at h
    exact Option.some.inj h
  exact ⟨f, found, of_all (p := fun f => f.graph.inst? _) (by decide +kernel),
    of_all (p := fun f => selfWrite.materialize.accessPositions _ f.graph _) (by cbv)⟩

theorem selfWrite_changes_address : ∃ cells m₂ cursor₁ fr m₃ u cursor₂, ∃ globals : BuiltGlobals,
    EntityTable.empty.Exists selfWrite ∧
    selfWrite.collect selfWriteImage "__relift_" = .ok (selfWrite.materialize, cells) ∧
    (buildFrames selfWriteImage 128 cells.stack selfWrite.materialize .start .empty).warnings.1 = .ok (m₂, cursor₁, fr) ∧
    (m₂.buildGlobals .empty cells.globals cursor₁).warnings.1 = .ok (m₃, u, cursor₂, globals) ∧
    ∃ σ : ValueId → ValueId,
      (m₃.graph ⟨0⟩).inst? ⟨0⟩ = some ((Inst.call ⟨1⟩ [⟨0⟩, ⟨1⟩, ⟨1⟩] (.int .i64)).mapOperands σ) ∧ σ ⟨1⟩ ≠ ⟨1⟩ ∧
      selfWrite.materialize.ReachedAt "__relift_" ⟨0⟩ ⟨0⟩ 1 := by
  obtain ⟨cells, m₂, cursor₁, fr, m₃, u, cursor₂, globals, collected, framed, built, -, after⟩ := selfWrite_run
  obtain ⟨f, found, call, -⟩ := selfWrite_written
  have exist : EntityTable.empty.Exists selfWrite := nofun
  obtain ⟨σ, same, changes⟩ := homes_change_reached_operands exist (fun _ => id) collected framed built m₃ (.inr rfl) ⟨0⟩ f
    found ⟨0⟩ _ call
  have moved : σ ⟨1⟩ ≠ ⟨1⟩ := by
    simp only [after, Inst.mapOperands, Option.some.injEq, Inst.call.injEq, List.map_cons, List.cons.injEq] at same
    rw [← same.2.1.2.1]
    decide
  refine ⟨cells, m₂, cursor₁, fr, m₃, u, cursor₂, globals, exist, collected, framed, built, σ, same, moved, ?_⟩
  obtain ⟨-, reached | ⟨p, other, -, -, others⟩⟩ := changes 1 ⟨1⟩ rfl moved
  · exact reached
  · cases others
    exact absurd rfl other

/-- The value that is written is replaced as well, though no search comes to it. -/
theorem selfWrite_changes_value : ¬∀ (m m₁ m₂ m₃ : Module) image start redzone cells cursor₁ cursor₂ fr u,
    ∀ globals : BuiltGlobals, m.collect image start = .ok (m₁, cells) →
    (buildFrames image redzone cells.stack m₁ .start .empty).warnings.1 = .ok (m₂, cursor₁, fr) →
    (m₂.buildGlobals .empty cells.globals cursor₁).warnings.1 = .ok (m₃, u, cursor₂, globals) →
    ∀ id f, m₁.func? id = some f → ∀ i inst, f.graph.inst? i = some inst →
      ∃ after, (m₃.graph id).inst? i = some after ∧
        ∀ k v, inst.operands[k]? = some v → after.operands[k]? ≠ some v → m₁.ReachedAt start id i k := by
  intro claim
  obtain ⟨cells, m₂, cursor₁, fr, m₃, u, cursor₂, globals, collected, framed, built, -, after⟩ := selfWrite_run
  obtain ⟨f, found, call, positions⟩ := selfWrite_written
  obtain ⟨last, there, only⟩ := claim _ _ _ _ _ _ _ _ _ _ _ _ _ collected framed built ⟨0⟩ f found ⟨0⟩ _ call
  cases after.symm.trans there
  obtain ⟨g, inst, again, known, ⟨-, -, position⟩ | ⟨use, -, -, position⟩⟩ := only 2 ⟨1⟩ rfl (by decide)
  all_goals
    cases found.symm.trans again
    cases call.symm.trans known
  · rw [positions] at position
    exact absurd position (by decide)
  · cases position

end Module

end VarRecovery
