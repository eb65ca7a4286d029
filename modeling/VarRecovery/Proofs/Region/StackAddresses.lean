import VarRecovery.Proofs.Region.Retrace
import VarRecovery.Recovery

/-!
No stack address is left once frames and global variables are built: what is traced in their code is new, or was traced
before, and all that was traced to the stack has got a home in a frame.
-/

set_option autoImplicit false

namespace VarRecovery

namespace Func

variable {old : Nat} {moved : InstId → ValueId → Prop} {f g : Func}

theorem SameButUsers.rehomes (same : f.SameButUsers g) : f.Rehomes old moved g := by
  rw [same]
  exact .of_graph (.of_eq rfl rfl)

theorem Rehomes.hasBody (rehomes : f.Rehomes old moved g) : g.hasBody = f.hasBody := by
  rw [Func.hasBody, rehomes.entry, Func.hasBody]

end Func

namespace Module

variable {old : FuncId → Nat} {moved : FuncId → InstId → ValueId → Prop} {m n : Module} {image : Image} {start : String}
  {cursor last : EntryCursor} {t : EntityTable} {f : FuncId} {use : Graph.Use}

theorem buildFrames_rehomes {redzone : Nat} {stack : List (FuncId × List Cell)} {fr fr' : Frontier}
    (sized : ∀ id, old id ≤ m.counts id)
    (movable : ∀ s ∈ stack, ∀ c ∈ s.2, moved s.1 c.user c.value ∧ c.IsOperand (m.graph s.1)) {ws stop : List Warning}
    (run : (buildFrames image redzone stack m cursor fr).run.run ws = (.ok (n, last, fr'), stop)) :
    m.Rehomes old moved n ∧ ∀ s ∈ stack, ∀ c ∈ s.2, (n.graph s.1).Spares c.user c.value := by
  induction stack generalizing m cursor fr ws with
  | nil =>
    obtain ⟨done, -⟩ := Recovering.pure_ok run
    cases done
    exact ⟨.refl _, nofun⟩
  | cons s stack ih =>
    obtain ⟨f, cells⟩ := s
    obtain ⟨⟨m₁, cursor₁, frame⟩, _, first, rest⟩ := Recovering.bind_ok run
    obtain ⟨here, others⟩ := List.forall_mem_cons.mp movable
    obtain ⟨rehomes, spares⟩ := buildFrame_rehomes sized here first
    obtain ⟨later, all⟩ := ih (rehomes.counts sized)
      (fun s member c inside => (others s member c inside).imp_right (rehomes.graph s.1).isOperand) rest
    refine ⟨rehomes.trans later, List.forall_mem_cons.mpr ⟨fun c member => ?_, all⟩⟩
    exact (later.graph f).spares ((rehomes.graph f).isOperand (here c member).2).constant (spares c member)

/-- Plain code is written out already. -/
theorem rehomes_materialize (plain : ∀ id f, m.func? id = some f → f.Plain) : m.Rehomes old moved m.materialize :=
  .map m.func?_materialize (fun id f found => (plain id f found).materialize.rehomes)
    (Nat.le_of_eq (congrArg Array.size m.globals_materialize.symm))

theorem has_materialize {e : Entity} (has : m.Has e) : m.materialize.Has e := by
  cases e with
  | func id =>
    obtain ⟨f, found⟩ := has
    exact ⟨f.materialize, by rw [func?_materialize, found]; rfl⟩
  | var id =>
    obtain ⟨v, found⟩ := has
    exact ⟨v, by rwa [global?, globals_materialize]⟩

/-! ### What is traced -/

theorem Traces.operand (traces : m.Traces start f use) : use.2 ∈ (m.graph f).operands use.1 := by
  obtain ⟨func, found, -, root, member, way⟩ := traces
  rw [graph_of_func? found]
  rcases way.cases_tail with same | ⟨before, -, step⟩
  · exact same ▸ (isUse_of_mem_addressUses member).2
  · obtain ⟨inst, -, known, operand⟩ := Graph.mem_sources.mp step
    exact Graph.mem_operands.mpr ⟨inst, known, Graph.mem_operands_of_addressOperands operand⟩

theorem Traces.has (traces : m.Traces start f use) (complete : m.Complete) : (m.graph f).Has use.2 := by
  have operand := traces.operand
  obtain ⟨func, found, -⟩ := traces
  rw [graph_of_func? found] at operand ⊢
  exact (complete f func found).operands _ _ operand

theorem Traces.sources (traces : m.Traces start f use) : ∀ source ∈ (m.graph f).sources use, m.Traces start f source := by
  obtain ⟨func, found, body, root, member, way⟩ := traces
  rw [graph_of_func? found]
  exact fun source step => ⟨func, found, body, root, member, way.tail step⟩

/-- Whatever is traced in code that got homes was traced before, or leads to no constant. -/
theorem Rehomes.traces (rehomes : m.Rehomes m.counts (fun f i v => m.Traces start f (i, v)) n) (complete : m.Complete)
    (traces : n.Traces start f use) : Graph.Retraced (m.counts f) (m.Traces start f) (n.graph f) use := by
  obtain ⟨g, after, body, root, member, way⟩ := traces
  obtain ⟨func, found⟩ := Option.isSome_iff_exists.mp (rehomes.known f (by rw [after]; rfl))
  obtain ⟨again, same, rehome⟩ := rehomes.func f func found
  cases after.symm.trans same
  have size : m.counts f = func.graph.insts.size := by rw [Module.counts, graph_of_func? found]
  have graph : m.graph f = func.graph := graph_of_func? found
  rw [size] at rehome ⊢
  rw [graph_of_func? after]
  have known (i : InstId) (v : ValueId) (operand : v ∈ func.graph.operands i) : func.graph.Has v :=
    (complete f func found).operands i v operand
  induction way with
  | refl =>
    rcases addressUses_before rehomes.funcName rehome known member with escapes | ⟨before, listed, user, address⟩
    · exact .inl escapes
    · refine .inr ⟨?_, (isUse_of_mem_addressUses member).2⟩
      rw [← user, ← address]
      exact ⟨func, found, rehome.hasBody ▸ body, before, listed, .refl⟩
  | tail _ step ih =>
    refine rehome.graph.sources known (fun use traces => ?_) (fun use traces => ?_) (fun i inst v there traces => ?_) ih _
      step
    · exact graph ▸ traces.operand
    · exact graph ▸ traces.sources
    · rintro ⟨op, lhs, rhs, rfl⟩
      exact graph ▸ traces.addressOperand (graph.symm ▸ there) fun root access => by cases access

/-- A traced constant is an operand, and so may get a home. -/
theorem Accesses.movable {c : Cell} (accesses : m.Accesses start c) :
    m.Traces start c.func (c.user, c.value) ∧ c.IsOperand (m.graph c.func) := by
  obtain ⟨traces, i, constant, -⟩ := accesses.traces
  obtain ⟨inst, found, -⟩ := Graph.mem_operands.mp traces.operand
  exact ⟨traces, Graph.inst?_lt found, by rw [constant]; rfl⟩

theorem Rehomes.plain (rehomes : m.Rehomes m.counts moved n) (plain : ∀ id f, m.func? id = some f → f.Plain)
    (id : FuncId) (g : Func) (found : n.func? id = some g) : g.Plain := by
  obtain ⟨f, before⟩ := Option.isSome_iff_exists.mp (rehomes.known id (by rw [found]; rfl))
  obtain ⟨h, after, same⟩ := rehomes.func id f before
  cases found.symm.trans after
  rw [Module.counts, graph_of_func? before] at same
  exact same.plain (plain id f before)

/-- No stack address is found where those that were traced before are used no more. -/
theorem Rehomes.stack_eq_nil (rehomes : m.Rehomes m.counts (fun f i v => m.Traces start f (i, v)) n)
    (complete : m.Complete) (gone : ∀ f use i, m.Traces start f use → (m.graph f).imm? use.2 = some i →
      image.kindAt i.toAddress = .stack → (n.graph f).Spares use.1 use.2)
    {before : Module} {cells : Cells} (collected : before.collect image start = .ok (n, cells)) : cells.stack = [] := by
  refine List.eq_nil_iff_forall_not_mem.mpr fun s member => ?_
  obtain ⟨nonempty, found⟩ := (collect_stack collected).1 s member
  obtain ⟨c, inside⟩ := List.exists_mem_of_ne_nil _ nonempty
  obtain ⟨-, accesses, kind⟩ := found c inside
  obtain ⟨traces, i, constant, address⟩ := accesses.traces
  rcases rehomes.traces complete traces with escapes | ⟨before, operand⟩
  · cases escapes.not_imm.symm.trans constant
  · rw [(rehomes.graph c.func).imm?_eq (before.has complete)] at constant
    rw [address] at kind
    obtain ⟨inst, known, absent⟩ := gone c.func (c.user, c.value) i before constant kind
    obtain ⟨other, again, uses⟩ := Graph.mem_operands.mp operand
    cases known.symm.trans again
    exact absent uses

/-- Two reads of the stack, one of them by way of a phi that an expression comes into from the entry block. -/
def phiReads (jumps : Bool) : Module :=
  let ptr := Ty.ptr (.int .i64)
  let f := (Func.declare ⟨"f", .exported, [], .unit, none, false, false⟩ []).addBlock.addBlock
  let f := if jumps then (f.insertInst (.jump ⟨1⟩) (.bottom ⟨0⟩)).1 else f
  let f := (f.addImm (.ofInt .i64 4104)).1
  let f := (f.addExpr (.cast .intToPtr ⟨0⟩) ptr).1
  let f := (f.insert (.phi [(⟨1⟩, ⟨0⟩)] ptr) ptr (.bottom ⟨1⟩)).1
  let f := (f.insert (.load ⟨2⟩ (.int .i64)) (.int .i64) (.bottom ⟨1⟩)).1
  let f := (f.addImm (.ofInt .i64 4112)).1
  let f := (f.insert (.cast .intToPtr ⟨4⟩ ptr) ptr (.bottom ⟨1⟩)).1
  let f := (f.insert (.load ⟨5⟩ (.int .i64)) (.int .i64) (.bottom ⟨1⟩)).1
  let f := (f.insertInst (.leave none) (.bottom ⟨1⟩)).1
  { empty ⟨.x86_64, .unknown, .linux⟩ with funcs := #[f] }

def phiReadsImage : Image where
  kindAt address := if 4096 ≤ address ∧ address < 8192 then .stack else .unknown
  stackPointer := some 8000
  funcs := []
  vars := []

/-- How many functions have cells on the stack, before frames are built and after. -/
def stackCounts? (m : Module) (image : Image) (start : String) (redzone : Nat) : Option (Nat × Nat) := do
  let (m, cells) ← (m.collect image start).toOption
  let (m, cursor, _) ← (buildFrames image redzone cells.stack m .start .empty).warnings.1.toOption
  let (m, _) ← (m.buildGlobals .empty cells.globals cursor).warnings.1.toOption
  let (_, left) ← (m.collect image start).toOption
  return (cells.stack.length, left.stack.length)

theorem exists_of_stackCounts? {redzone before after : Nat}
    (counts : m.stackCounts? image start redzone = some (before, after)) :
    ∃ m₁ cells m₂ cursor₁ fr m₃ u cursor₂, ∃ globals : BuiltGlobals, ∃ m₄ left,
      m.collect image start = .ok (m₁, cells) ∧
      (buildFrames image redzone cells.stack m₁ .start .empty).warnings.1 = .ok (m₂, cursor₁, fr) ∧
      (m₂.buildGlobals .empty cells.globals cursor₁).warnings.1 = .ok (m₃, u, cursor₂, globals) ∧
      m₃.collect image start = .ok (m₄, left) ∧ cells.stack.length = before ∧ left.stack.length = after := by
  obtain ⟨⟨m₁, cells⟩, first, rest⟩ := Option.bind_eq_some_iff.mp counts
  obtain ⟨⟨m₂, cursor₁, fr⟩, second, rest⟩ := Option.bind_eq_some_iff.mp rest
  obtain ⟨⟨m₃, u, cursor₂, globals⟩, third, rest⟩ := Option.bind_eq_some_iff.mp rest
  obtain ⟨⟨m₄, left⟩, last, rest⟩ := Option.bind_eq_some_iff.mp rest
  obtain ⟨rfl, rfl⟩ := Prod.mk.inj (Option.some.inj rest)
  exact ⟨m₁, cells, m₂, cursor₁, fr, m₃, u, cursor₂, globals, m₄, left, Recovering.ok_of_toOption first,
    Recovering.ok_of_toOption second, Recovering.ok_of_toOption third, Recovering.ok_of_toOption last, rfl, rfl⟩

theorem complete_phiReads (jumps : Bool) : (phiReads jumps).Complete := by
  intro id f found
  match id with
  | ⟨0⟩ => cases found; cases jumps <;> decide +kernel
  | ⟨_ + 1⟩ => cases found

-- To evaluate a collection takes these equations, which are slow to derive, so they are derived once, here.
attribute [local simp] Intrinsic.name

end Module

end VarRecovery
