import VarRecovery.Proofs.Code.Func
import VarRecovery.Proofs.Code.Module
import VarRecovery.Proofs.Code.Tracking

/-!
What code keeps when code is written into it and it comes to use other values: an instruction says the same but for
its operands, blocks end as they did, and neither calls nor constant expressions are new.
-/

set_option autoImplicit false

namespace VarRecovery

namespace Graph

/-- Instructions were written, none of them a call, and others use other values. A value that is new is no expression,
and if it is a result, then of a new instruction. -/
structure Evolves (g h : Graph) : Prop where
  size : g.insts.size ≤ h.insts.size
  values : g.values.size ≤ h.values.size
  form : ∀ i inst, g.inst? i = some inst → ∃ other, h.inst? i = some other ∧ other.form = inst.form
  fresh : ∀ i inst, h.inst? i = some inst → g.inst? i = none → inst.isCall = false
  expr : ∀ v e ty, h.value? v = some (.expr e ty) → g.value? v = some (.expr e ty)
  defined : ∀ v i, h.definition? v = some i → g.definition? v = some i ∨ g.insts.size ≤ i.index

variable {g h k : Graph} {i : InstId} {inst : Inst}

theorem Evolves.trans (first : g.Evolves h) (second : h.Evolves k) : g.Evolves k where
  size := Nat.le_trans first.size second.size
  values := Nat.le_trans first.values second.values
  form i inst found := by
    obtain ⟨middle, between, one⟩ := first.form i inst found
    obtain ⟨last, after, two⟩ := second.form i middle between
    exact ⟨last, after, two.trans one⟩
  fresh i inst found new := by
    cases between : h.inst? i with
    | none => exact second.fresh i inst found between
    | some other =>
      obtain ⟨last, after, same⟩ := second.form i other between
      cases found.symm.trans after
      have noCall := first.fresh i other between new
      cases inst with
      | call callee args ret =>
        obtain ⟨values, rfl, -⟩ := Inst.call_of_form same.symm
        cases noCall
      | _ => rfl
  expr v e ty found := first.expr v e ty (second.expr v e ty found)
  defined v i made := by
    rcases second.defined v i made with before | new
    · exact first.defined v i before
    · exact .inr (Nat.le_trans first.size new)

/-- Instructions change in what they use only, and so do values. -/
theorem Evolves.of_forms (size : h.insts.size = g.insts.size) (values : g.values.size ≤ h.values.size)
    (form : ∀ i inst, g.inst? i = some inst → ∃ other, h.inst? i = some other ∧ other.form = inst.form)
    (expr : ∀ v e ty, h.value? v = some (.expr e ty) → g.value? v = some (.expr e ty))
    (defined : ∀ v i, h.definition? v = some i → g.definition? v = some i) : g.Evolves h where
  size := Nat.le_of_eq size.symm
  values := values
  form := form
  fresh i inst found new := by
    have inside := inst?_lt found
    obtain ⟨other, known⟩ := exists_inst (g := g) (i := i) (by omega)
    cases new.symm.trans known
  expr := expr
  defined v i made := .inl (defined v i made)

theorem Evolves.of_insts_eq (insts : h.insts = g.insts) (values : g.values.size ≤ h.values.size)
    (expr : ∀ v e ty, h.value? v = some (.expr e ty) → g.value? v = some (.expr e ty))
    (defined : ∀ v i, h.definition? v = some i → g.definition? v = some i) : g.Evolves h :=
  .of_forms (congrArg Array.size insts) values (fun i inst found => ⟨inst, by rwa [inst?, insts], rfl⟩) expr defined

theorem Evolves.of_values_eq (values : h.values = g.values) (size : h.insts.size = g.insts.size)
    (form : ∀ i inst, g.inst? i = some inst → ∃ other, h.inst? i = some other ∧ other.form = inst.form) : g.Evolves h :=
  .of_forms size (Nat.le_of_eq (congrArg Array.size values.symm)) form
    (fun v e ty found => by rwa [value?, values] at found)
    fun v i made => by rwa [definition?, value?, values] at made

theorem Evolves.refl (g : Graph) : g.Evolves g :=
  .of_values_eq rfl rfl fun _ inst found => ⟨inst, found, rfl⟩

theorem evolves_findOrAdd (g : Graph) (p : Value → Bool) {val : Value} (noResult : ∀ i ty, val ≠ .result i ty)
    (noExpr : ∀ e ty, val ≠ .expr e ty) : g.Evolves (g.findOrAdd p val).1 := by
  rcases findOrAdd_cases g p val with ⟨v, known, -, -, same⟩ | new
  · rw [same]
    exact .refl g
  · rw [new]
    refine .of_insts_eq rfl (by simp [addValue]) (fun v e ty found => ?_) fun v i made => ?_
    · rw [value?_addValue] at found
      split at found
      next => exact absurd (Option.some.inj found) (noExpr e ty)
      next => exact found
    · obtain ⟨ty, found⟩ := definition?_eq_some.mp made
      rw [value?_addValue] at found
      split at found
      next => exact absurd (Option.some.inj found) (noResult i ty)
      next => exact definition?_eq_some.mpr ⟨ty, found⟩

theorem evolves_addImm (g : Graph) (i : Imm) : g.Evolves (g.addImm i).1 :=
  evolves_findOrAdd g _ nofun nofun

theorem evolves_addGlobal (g : Graph) (id : GlobalId) (ty : Ty) : g.Evolves (g.addGlobal id ty).1 :=
  evolves_findOrAdd g _ nofun nofun

theorem evolves_addFunc (g : Graph) (id : FuncId) (ty : Ty) : g.Evolves (g.addFunc id ty).1 :=
  evolves_findOrAdd g _ nofun nofun

theorem evolves_setGlobalTy (g : Graph) (id : GlobalId) (ty : Ty) : g.Evolves (g.setGlobalTy id ty) := by
  refine .of_insts_eq rfl (by simp [setGlobalTy]) (fun v e ty' found => ?_) fun v i made => by
    rwa [definition?_setGlobalTy] at made
  rw [value?_setGlobalTy] at found
  obtain ⟨val, known, same⟩ := Option.map_eq_some_iff.mp found
  cases val <;> cases same
  exact known

theorem evolves_addInst (g : Graph) (noCall : inst.isCall = false) : g.Evolves (g.addInst inst).1 where
  size := by
    rw [congrArg Graph.insts (addInst_eq g inst).1, Array.size_push]
    exact Nat.le_succ _
  values := Nat.le_of_eq (congrArg (fun g : Graph => g.values.size) (addInst_eq g inst).1.symm :)
  form i other found := by
    have old : i ≠ g.nextInst := fun same => Nat.lt_irrefl _ (same ▸ inst?_lt found)
    exact ⟨other, by rw [inst?_addInst, if_neg old, found], rfl⟩
  fresh i other found new := by
    rw [inst?_addInst] at found
    split at found
    next => cases found; exact noCall
    next => cases new.symm.trans found
  expr v e ty found := by rwa [value?_addInst] at found
  defined v i made := by
    rw [definition?, value?_addInst] at made
    exact .inl made

theorem evolves_emit (g : Graph) (noCall : inst.isCall = false) (ty : Ty) : g.Evolves (g.emit inst ty) := by
  have written := g.evolves_addInst noCall
  have values : (g.addInst inst).1.values.size ≤ (g.emit inst ty).values.size := by
    rw [emit, addResult, addValue, Array.size_push]
    exact Nat.le_succ _
  refine ⟨written.size, Nat.le_trans written.values values, written.form, written.fresh, fun v e ty' found => ?_,
    fun v i made => ?_⟩
  · rw [value?_emit] at found
    split at found
    next => cases found
    next => exact found
  · obtain ⟨ty', found⟩ := definition?_eq_some.mp made
    rw [value?_emit] at found
    split at found
    next => cases found; exact .inr (Nat.le_refl _)
    next => exact .inl (definition?_eq_some.mpr ⟨ty', found⟩)

theorem evolves_setInst {old : Inst} (found : g.inst? i = some old) (same : inst.form = old.form) :
    g.Evolves (g.setInst i inst) := by
  obtain ⟨values, -, size⟩ := setInst_eq g i inst
  refine .of_values_eq (congrArg Graph.values values :) size fun j other known => ?_
  rw [inst?_setInst, known]
  split
  next here =>
    cases found.symm.trans (here ▸ known)
    exact ⟨inst, rfl, same⟩
  next => exact ⟨other, rfl, rfl⟩

theorem evolves_replaceOperand (g : Graph) (i : InstId) (old new : ValueId) : g.Evolves (g.replaceOperand i old new) := by
  obtain ⟨values, -, size⟩ := replaceOperand_eq g i old new
  refine .of_values_eq (congrArg Graph.values values :) size fun j other known => ?_
  rw [inst?_replaceOperand, known]
  split
  next => exact ⟨_, rfl, Inst.form_mapOperands _ other⟩
  next => exact ⟨other, rfl, rfl⟩

theorem evolves_replaceUses (g : Graph) (old new : ValueId) : g.Evolves (g.replaceUses old new) := by
  obtain ⟨values, -, size⟩ := replaceUses_eq g old new
  refine .of_values_eq (congrArg Graph.values values :) size fun j other known => ?_
  rw [inst?_replaceUses, known]
  split
  next => exact ⟨_, rfl, Inst.form_mapOperands _ other⟩
  next => exact ⟨other, rfl, rfl⟩

theorem evolves_untrack (g : Graph) (i : InstId) : g.Evolves (g.untrack i) :=
  .of_values_eq (congrArg Graph.values (untrack_eq g i).1 :)
    (congrArg (fun g : Graph => g.insts.size) (untrack_eq g i).1 :)
    fun j other known => ⟨other, by rwa [inst?_untrack], rfl⟩

end Graph

namespace Listing

variable {l : Listing} {i j : InstId} {place : Place} {c : BlockId × List InstId}

/-- What is put anywhere but at its end, or behind its last instruction, leaves the last of a block. -/
theorem exists_block_of_insert (block : c ∈ (l.insert i place).blocks) : ∃ b ∈ l.blocks, c.1 = b.1 ∧
    ∀ last, b.2.getLast? = some last → (∀ b, place ≠ .bottom b) → place ≠ .after last → c.2.getLast? = some last := by
  cases place with
  | top top =>
    obtain ⟨b, before, rfl⟩ := List.mem_map.mp block
    refine ⟨b, before, by dsimp only; split <;> rfl, fun last at_ _ _ => ?_⟩
    dsimp only
    split
    -- In front of the block its last instruction stays the last.
    · obtain ⟨rest, same⟩ := List.getLast?_eq_some_iff.mp at_
      exact List.getLast?_eq_some_iff.mpr ⟨i :: rest, by rw [same]; rfl⟩
    · exact at_
  | bottom bottom =>
    obtain ⟨b, before, rfl⟩ := List.mem_map.mp block
    exact ⟨b, before, by dsimp only; split <;> rfl, fun _ _ inner _ => absurd rfl (inner bottom)⟩
  | before anchor =>
    obtain ⟨b, before, rfl⟩ := List.mem_map.mp block
    exact ⟨b, before, rfl, fun last at_ _ _ => (getLast?_flatMap (getLast?_putBefore i anchor) b.2).trans at_⟩
  | after anchor =>
    obtain ⟨b, before, rfl⟩ := List.mem_map.mp block
    refine ⟨b, before, rfl, fun last at_ _ inner => ?_⟩
    have other : last ≠ anchor := fun same => inner (congrArg Place.after same.symm)
    obtain ⟨rest, same⟩ := List.getLast?_eq_some_iff.mp at_
    dsimp only
    rw [same, List.flatMap_append, List.flatMap_cons, if_neg other]
    exact List.getLast?_concat

end Listing

namespace Func

/-- The same for a function, in which no phi is new, and nothing is written behind the end of a block. -/
structure KeepsForm (f g : Func) : Prop where
  signature : g.signature = f.signature
  args : g.args = f.args
  blocks : g.listing.blockIds = f.listing.blockIds
  code : ∀ i ∈ g.code, i ∈ f.code ∨ f.graph.insts.size ≤ i.index
  ends : f.EndsInTerminators → g.EndsInTerminators
  noPhi : ∀ i inst, g.graph.inst? i = some inst → f.graph.inst? i = none → inst.isPhi = false
  graph : f.graph.Evolves g.graph

variable {f g h : Func} {i : InstId} {inst : Inst} {place : Place}

theorem KeepsForm.trans (first : f.KeepsForm g) (second : g.KeepsForm h) : f.KeepsForm h where
  signature := second.signature.trans first.signature
  args := second.args.trans first.args
  blocks := second.blocks.trans first.blocks
  code i listed := by
    rcases second.code i listed with before | new
    · exact first.code i before
    · exact .inr (Nat.le_trans first.graph.size new)
  ends ends := second.ends (first.ends ends)
  noPhi i inst found new := by
    cases between : g.graph.inst? i with
    | none => exact second.noPhi i inst found between
    | some other =>
      obtain ⟨last, after, same⟩ := second.graph.form i other between
      cases found.symm.trans after
      have plain := first.noPhi i other between new
      cases inst with
      | phi incoming ty =>
        obtain ⟨values, rfl, -⟩ := Inst.phi_of_form same.symm
        cases plain
      | _ => rfl
  graph := first.graph.trans second.graph

theorem EndsInTerminators.evolve (ends : f.EndsInTerminators) {graph : Graph} (evolves : f.graph.Evolves graph) :
    EndsInTerminators { f with graph } := by
  intro b block
  obtain ⟨i, inst, last, found, terminates⟩ := ends b block
  obtain ⟨other, after, same⟩ := evolves.form i inst found
  exact ⟨i, other, last, after, (Inst.isTerminator_of_form same).trans terminates⟩

/-- The code stays where it is. -/
theorem KeepsForm.of_graph {graph : Graph} (evolves : f.graph.Evolves graph)
    (size : graph.insts.size = f.graph.insts.size) : f.KeepsForm { f with graph } where
  signature := rfl
  args := rfl
  blocks := rfl
  code _ listed := .inl listed
  ends ends := ends.evolve evolves
  noPhi i inst found new := by
    have inside : i.index < f.graph.insts.size := size ▸ Graph.inst?_lt found
    obtain ⟨other, known⟩ := Graph.exists_inst inside
    cases new.symm.trans known
  graph := evolves

theorem KeepsForm.refl (f : Func) : f.KeepsForm f :=
  .of_graph (.refl f.graph) rfl

theorem keepsForm_addImm (f : Func) (i : Imm) : f.KeepsForm (f.addImm i).1 :=
  .of_graph (f.graph.evolves_addImm i) (congrArg Array.size (f.graph.insts_addImm i))

theorem keepsForm_setInst {old : Inst} (found : f.graph.inst? i = some old) (same : inst.form = old.form) :
    f.KeepsForm (f.updateGraph (·.setInst i inst)) :=
  .of_graph (Graph.evolves_setInst found same) (Graph.setInst_eq f.graph i inst).2.2

theorem keepsForm_replaceOperand (f : Func) (i : InstId) (old new : ValueId) :
    f.KeepsForm (f.updateGraph (·.replaceOperand i old new)) :=
  .of_graph (f.graph.evolves_replaceOperand i old new) (Graph.replaceOperand_eq f.graph i old new).2.2

theorem keepsForm_replaceUses (f : Func) (old new : ValueId) : f.KeepsForm (f.updateGraph (·.replaceUses old new)) :=
  .of_graph (f.graph.evolves_replaceUses old new) (Graph.replaceUses_eq f.graph old new).2.2

/-- A place that is not at the end of a block. -/
def IsInner (f : Func) : Place → Prop
  | .top _ | .before _ => True
  | .after i => ∃ inst, f.graph.inst? i = some inst ∧ inst.isTerminator = false
  | .bottom _ => False

theorem isInner_before (f : Func) (anchor : InstId) : f.IsInner (.before anchor) := trivial

/-- An instruction is written, and may get a result. -/
theorem keepsForm_place {graph : Graph} (inner : f.IsInner place) (evolves : f.graph.Evolves graph)
    (inst? : ∀ i, graph.inst? i = if i = f.graph.nextInst then some inst else f.graph.inst? i)
    (plain : inst.isPhi = false) :
    f.KeepsForm { f with graph, listing := f.listing.insert f.graph.nextInst place } where
  signature := rfl
  args := rfl
  blocks := Listing.blockIds_insert _ _ _
  code i listed := by
    rcases Listing.mem_allInsts_insert listed with rfl | before
    · exact .inr (Nat.le_refl _)
    · exact .inl before
  ends ends := by
    intro c block
    obtain ⟨b, before, -, stays⟩ := Listing.exists_block_of_insert block
    obtain ⟨i, ending, last, found, terminates⟩ := ends b before
    obtain ⟨other, after, same⟩ := evolves.form i ending found
    refine ⟨i, other, stays i last ?_ ?_, after, (Inst.isTerminator_of_form same).trans terminates⟩
    · rintro bottom rfl
      exact inner
    · rintro rfl
      obtain ⟨anchor, again, inside⟩ := inner
      cases found.symm.trans again
      cases inside.symm.trans terminates
  noPhi i other found new := by
    rw [inst?] at found
    split at found
    next => cases found; exact plain
    next => cases new.symm.trans found
  graph := evolves

theorem keepsForm_insert (inner : f.IsInner place) (noCall : inst.isCall = false) (plain : inst.isPhi = false) (ty : Ty) :
    f.KeepsForm (f.insert inst ty place).1 := by
  rw [insert_eq]
  exact keepsForm_place inner (f.graph.evolves_emit noCall ty) (f.graph.inst?_emit inst ty) plain

theorem keepsForm_insertInst (inner : f.IsInner place) (noCall : inst.isCall = false) (plain : inst.isPhi = false) :
    f.KeepsForm (f.insertInst inst place).1 :=
  keepsForm_place inner (f.graph.evolves_addInst noCall) (f.graph.inst?_addInst inst) plain

theorem keepsForm_remove (found : f.graph.inst? i = some inst) (inner : inst.isTerminator = false) :
    f.KeepsForm (f.remove i) where
  signature := rfl
  args := rfl
  blocks := Listing.blockIds_updateAll f.listing _
  code j listed := .inl (mem_code_remove.mp listed).1
  ends ends := by
    intro c block
    obtain ⟨b, before, rfl⟩ := List.mem_map.mp (f.listing.blocks_remove i ▸ block)
    obtain ⟨last, ending, at_, known, terminates⟩ := ends b before
    have other : last ≠ i := by
      rintro rfl
      cases known.symm.trans found
      cases inner.symm.trans terminates
    obtain ⟨rest, split⟩ := List.getLast?_eq_some_iff.mp at_
    refine ⟨last, ending, by simp [split, List.filter_append, other], ?_, terminates⟩
    exact (f.graph.inst?_untrack i last).trans known
  noPhi j other after new := by
    rw [remove, Graph.inst?_untrack] at after
    cases new.symm.trans after
  graph := f.graph.evolves_untrack i

/-- Listed calls and phis were there and listed before. -/
theorem KeepsForm.known (keeps : f.KeepsForm g) (listed : i ∈ g.code) (found : g.graph.inst? i = some inst)
    (old : inst.isCall ∨ inst.isPhi) : i ∈ f.code ∧ ∃ other, f.graph.inst? i = some other ∧ inst.form = other.form := by
  cases before : f.graph.inst? i with
  | none =>
    rcases old with call | phi
    · cases call.symm.trans (keeps.graph.fresh i inst found before)
    · cases phi.symm.trans (keeps.noPhi i inst found before)
  | some other =>
    obtain ⟨last, after, same⟩ := keeps.graph.form i other before
    cases found.symm.trans after
    exact ⟨(keeps.code i listed).resolve_right (Nat.not_le_of_lt (Graph.inst?_lt before)), other, rfl, same⟩

/-- Phis have values from the same blocks as before. -/
theorem KeepsForm.grounded (keeps : f.KeepsForm g) (grounded : f.PhisGrounded) : g.PhisGrounded := by
  intro i listed incoming ty found
  obtain ⟨old, inst, before, same⟩ := keeps.known listed found (.inr rfl)
  obtain ⟨values, rfl, blocks⟩ := Inst.phi_of_form same.symm
  obtain ⟨some_, from_⟩ := grounded i old values ty before
  refine ⟨?_, fun e member => ?_⟩
  · rintro rfl
    exact some_ (List.map_eq_nil_iff.mp blocks)
  · obtain ⟨d, inside, here⟩ := List.mem_map.mp (blocks ▸ List.mem_map_of_mem member : e.2 ∈ values.map Prod.snd)
    rw [keeps.blocks, ← here]
    exact from_ d inside

end Func

namespace Module

/-- The same for a program, in which variables may be new and, unless `fixed` holds, have other types. -/
structure KeepsForm (fixed : Prop) (m n : Module) : Prop where
  target : n.target = m.target
  func : ∀ id f, m.func? id = some f → ∃ g, n.func? id = some g ∧ f.KeepsForm g
  known : ∀ id, (n.func? id).isSome → (m.func? id).isSome
  global : ∀ id v, m.global? id = some v → ∃ w, n.global? id = some w ∧ w.symbol = v.symbol ∧ (fixed → w = v)

variable {fixed : Prop} {m n k : Module} {id : FuncId} {f g : Func}

theorem KeepsForm.refl (m : Module) : m.KeepsForm fixed m :=
  ⟨rfl, fun _ f found => ⟨f, found, .refl f⟩, fun _ known => known, fun _ v found => ⟨v, found, rfl, fun _ => rfl⟩⟩

theorem KeepsForm.trans (first : m.KeepsForm fixed n) (second : n.KeepsForm fixed k) : m.KeepsForm fixed k where
  target := second.target.trans first.target
  func id f found := by
    obtain ⟨g, middle, one⟩ := first.func id f found
    obtain ⟨h, last, two⟩ := second.func id g middle
    exact ⟨h, last, one.trans two⟩
  known id there := first.known id (second.known id there)
  global id v found := by
    obtain ⟨w, middle, symbol, same⟩ := first.global id v found
    obtain ⟨u, last, symbol', same'⟩ := second.global id w middle
    exact ⟨u, last, symbol'.trans symbol, fun stays => (same' stays).trans (same stays)⟩

theorem KeepsForm.weaken (keeps : m.KeepsForm fixed n) : m.KeepsForm False n :=
  ⟨keeps.target, keeps.func, keeps.known, fun id v found =>
    (keeps.global id v found).imp fun _ ⟨after, symbol, _⟩ => ⟨after, symbol, False.elim⟩⟩

theorem KeepsForm.of_globals_eq (func : ∀ id f, m.func? id = some f → ∃ g, n.func? id = some g ∧ f.KeepsForm g)
    (known : ∀ id, (n.func? id).isSome → (m.func? id).isSome) (target : n.target = m.target)
    (globals : n.globals = m.globals) : m.KeepsForm fixed n :=
  ⟨target, func, known, fun id v found => ⟨v, by rwa [global?, globals], rfl, fun _ => rfl⟩⟩

theorem KeepsForm.of_func (func : ∀ id, n.func? id = m.func? id) (target : n.target = m.target)
    (global : ∀ id v, m.global? id = some v → n.global? id = some v) : m.KeepsForm fixed n :=
  ⟨target, fun id f found => ⟨f, (func id).trans found, .refl f⟩, fun id there => by rwa [func] at there,
    fun id v found => ⟨v, global id v found, rfl, fun _ => rfl⟩⟩

theorem KeepsForm.updateFunc (found : m.func? id = some f) (keeps : f.KeepsForm g) :
    m.KeepsForm fixed (m.updateFunc id fun _ => g) := by
  refine .of_globals_eq (fun j h known => ?_) (fun j there => ?_) rfl rfl
  · rw [func?_updateFunc]
    split
    next here =>
      cases found.symm.trans (here ▸ known)
      exact ⟨g, by simp [known], keeps⟩
    next => exact ⟨h, known, .refl h⟩
  · rw [func?_updateFunc] at there
    split at there
    next => simpa using there
    next => exact there

theorem KeepsForm.change {change : Func → Func} (keeps : ∀ f : Func, f.KeepsForm (change f)) (m : Module) (id : FuncId) :
    m.KeepsForm fixed (m.updateFunc id change) := by
  cases found : m.func? id with
  | none =>
    rw [updateFunc_congr (fun f => f) (by simp [found]), updateFunc_id]
    exact .refl m
  | some f =>
    rw [updateFunc_congr (fun _ => change f) (by simp [found])]
    exact .updateFunc found (keeps f)

end Module

end VarRecovery
