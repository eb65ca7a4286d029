import VarRecovery.Proofs.Region.EntryCursor

/-!
Code whose operands are being redirected. Instructions are added that make addresses, and operands of the
old instructions become the values they make.
-/

set_option autoImplicit false

namespace VarRecovery

theorem mem_of_lookup {α β : Type} [BEq α] [LawfulBEq α] {memo : List (α × β)} {key : α} {b : β}
    (found : memo.lookup key = some b) : (key, b) ∈ memo := by
  obtain ⟨before, behind, rfl, -⟩ := List.lookup_eq_some_iff.mp found
  exact List.mem_append_right _ List.mem_cons_self

namespace Graph

/-- Values stay, and so do instructions, but for the first `old` ones. -/
structure Keeps (old : Nat) (g h : Graph) : Prop where
  size_insts : g.insts.size ≤ h.insts.size
  value : ∀ v val, g.value? v = some val → h.value? v = some val
  inst : ∀ i inst, old ≤ i.index → g.inst? i = some inst → h.inst? i = some inst

/-- An instruction behind the first `old` ones makes a value. -/
def Makes (old : Nat) (g : Graph) (v : ValueId) (inst : Inst) : Prop :=
  ∃ i, g.definition? v = some i ∧ old ≤ i.index ∧ g.inst? i = some inst

/-- Operands of instructions became others, and `stands` tells which may have taken the place of which. -/
def Redirects (stands : InstId → ValueId → ValueId → Prop) (g h : Graph) : Prop :=
  ∀ i inst, g.inst? i = some inst → ∃ σ : ValueId → ValueId,
    h.inst? i = some (inst.mapOperands σ) ∧ ∀ v, σ v = v ∨ stands i v (σ v)

variable {old fewer : Nat} {g h k : Graph} {v : ValueId} {inst : Inst}

theorem Keeps.refl (old : Nat) (g : Graph) : g.Keeps old g :=
  ⟨Nat.le_refl _, fun _ _ found => found, fun _ _ _ found => found⟩

theorem Keeps.trans (first : g.Keeps old h) (second : h.Keeps old k) : g.Keeps old k where
  size_insts := Nat.le_trans first.size_insts second.size_insts
  value v val found := second.value v val (first.value v val found)
  inst i inst new found := second.inst i inst new (first.inst i inst new found)

theorem Keeps.mono (keeps : g.Keeps fewer h) (le : fewer ≤ old) : g.Keeps old h where
  size_insts := keeps.size_insts
  value := keeps.value
  inst i inst new := keeps.inst i inst (Nat.le_trans le new)

theorem Keeps.imm? (keeps : g.Keeps old h) {i : Imm} (found : g.imm? v = some i) : h.imm? v = some i := by
  unfold Graph.imm? at found ⊢
  split at found
  next known =>
    rw [keeps.value v _ known]
    exact found
  next => cases found

theorem ty_of_imm? {i : Imm} (found : g.imm? v = some i) : g.ty v = .int i.width := by
  unfold Graph.imm? at found
  split at found
  next known =>
    cases found
    rw [ty, known]
    rfl
  next => cases found

theorem Keeps.definition? (keeps : g.Keeps old h) {i : InstId} (found : g.definition? v = some i) :
    h.definition? v = some i := by
  unfold Graph.definition? at found ⊢
  split at found
  next known =>
    rw [keeps.value v _ known]
    exact found
  next => cases found

theorem Makes.keeps (makes : g.Makes old v inst) (keeps : g.Keeps old h) : h.Makes old v inst := by
  obtain ⟨i, defined, new, found⟩ := makes
  exact ⟨i, keeps.definition? defined, new, keeps.inst i inst new found⟩

theorem Makes.imm? (makes : g.Makes old v inst) : g.imm? v = none := by
  obtain ⟨i, defined, -⟩ := makes
  unfold Graph.definition? at defined
  split at defined
  next known => rw [Graph.imm?, known]
  next => cases defined

theorem Keeps.operands_eq (keeps : g.Keeps 0 h) {i : InstId} (inside : i.index < g.insts.size) :
    h.operands i = g.operands i := by
  have found : g.inst? i = some g.insts[i.index] := Array.getElem?_eq_getElem inside
  rw [operands, operands, found, keeps.inst i _ (Nat.zero_le _) found]

theorem keeps_addValue (g : Graph) (val : Value) : g.Keeps 0 (g.addValue val).1 where
  size_insts := Nat.le_refl _
  value v known found := by rw [value?_addValue_of_lt (Array.getElem?_eq_some_iff.mp found).1, found]
  inst i inst _ found := found

theorem keeps_findOrAdd (g : Graph) (p : Value → Bool) (val : Value) :
    g.Keeps 0 (g.findOrAdd p val).1 := by
  rcases findOrAdd_cases g p val with ⟨v, known, -, -, same⟩ | new
  · rw [same]
    exact .refl 0 g
  · rw [new]
    exact keeps_addValue g val

theorem findOrAdd_spec (g : Graph) (p : Value → Bool) (val : Value) (holds : p val = true) :
    ∃ known, (g.findOrAdd p val).1.value? (g.findOrAdd p val).2 = some known ∧ p known = true := by
  rcases findOrAdd_cases g p val with ⟨v, known, found, holds, same⟩ | new
  · rw [same]
    exact ⟨known, found, holds⟩
  · rw [new]
    refine ⟨val, ?_, holds⟩
    rw [value?_addValue]
    exact if_pos rfl

theorem imm?_addImm_self (g : Graph) (i : Imm) : (g.addImm i).1.imm? (g.addImm i).2 = some i := by
  obtain ⟨known, found, same⟩ := g.findOrAdd_spec (· = .imm i) (.imm i) (decide_eq_true rfl)
  rw [of_decide_eq_true same] at found
  unfold addImm
  rw [Graph.imm?, found]

theorem keeps_emit (g : Graph) (inst : Inst) (ty : Ty) : g.Keeps 0 (g.emit inst ty) where
  size_insts := by
    rw [size_insts_emit]
    exact Nat.le_succ _
  value v known found := by
    have inside := (Array.getElem?_eq_some_iff.mp found).1
    have differ : v ≠ g.nextValue := fun same => Nat.lt_irrefl _ (same ▸ inside)
    rw [value?_emit, if_neg differ, found]
  inst i other _ found := by
    have inside := (Array.getElem?_eq_some_iff.mp found).1
    have differ : i ≠ g.nextInst := fun same => Nat.lt_irrefl _ (same ▸ inside)
    rw [inst?_emit, if_neg differ, found]

theorem makes_emit (le : old ≤ g.insts.size) (inst : Inst) (ty : Ty) :
    (g.emit inst ty).Makes old g.nextValue inst := by
  refine ⟨g.nextInst, ?_, le, ?_⟩
  · rw [definition?, value?_emit, if_pos rfl]
  · rw [inst?_emit, if_pos rfl]

theorem keeps_replaceOperand {i : InstId} (inside : i.index < old) (v new : ValueId) :
    g.Keeps old (g.replaceOperand i v new) where
  size_insts := Nat.le_of_eq (replaceOperand_eq g i v new).2.2.symm
  value w val found := by
    rw [value?, congrArg Graph.values (replaceOperand_eq g i v new).1]
    exact found
  inst j inst le found := by
    have differ : j ≠ i := fun same => Nat.lt_irrefl _ (Nat.lt_of_lt_of_le inside (same ▸ le))
    rw [inst?_replaceOperand, if_neg differ, found]

/-! ### What becomes of operands -/

variable {stands others : InstId → ValueId → ValueId → Prop}

theorem Redirects.of_insts_eq (same : h.insts = g.insts) : Redirects stands g h := by
  intro i inst found
  refine ⟨id, ?_, fun v => .inl rfl⟩
  rw [Inst.mapOperands_id, inst?, same]
  exact found

theorem Redirects.congr (redirects : Redirects stands g h) (same : g.insts = k.insts) :
    Redirects stands k h := by
  intro i inst found
  rw [inst?, ← same] at found
  exact redirects i inst found

theorem Redirects.mono (redirects : Redirects stands g h)
    (lasts : ∀ i v new, stands i v new → others i v new) : Redirects others g h := by
  intro i inst found
  obtain ⟨σ, after, operands⟩ := redirects i inst found
  exact ⟨σ, after, fun v => (operands v).imp_right (lasts i v (σ v))⟩

theorem Redirects.grow (redirects : Redirects stands g h) (keeps : h.Keeps 0 k) :
    Redirects stands g k := by
  intro i inst found
  obtain ⟨σ, after, operands⟩ := redirects i inst found
  exact ⟨σ, keeps.inst i _ (Nat.zero_le _) after, operands⟩

theorem Redirects.replaceOperand (redirects : Redirects stands g h) {i : InstId} {old new : ValueId}
    (final : ∀ i v new, stands i v new → new ≠ old) (new_stands : stands i old new) :
    Redirects stands g (h.replaceOperand i old new) := by
  intro j inst found
  obtain ⟨σ, after, operands⟩ := redirects j inst found
  rw [inst?_replaceOperand, after]
  split
  next here =>
    subst here
    refine ⟨fun v => if σ v = old then new else σ v, ?_, fun v => ?_⟩
    · rw [Option.map_some, Inst.replace, Inst.mapOperands_mapOperands]
      rfl
    -- What took the place of another operand is not `old`, so it stays.
    · rcases operands v with same | moved
      · dsimp only
        rw [same]
        split
        next first => exact .inr (first ▸ new_stands)
        next => exact .inl rfl
      · exact .inr (by simpa [final j v _ moved] using moved)
  next => exact ⟨σ, rfl, operands⟩

end Graph

namespace Module

/-- The same for the functions of a program, of which `old` counts the first instructions. -/
structure Keeps (old : FuncId → Nat) (m n : Module) : Prop where
  target : n.target = m.target
  func : ∀ f, (m.func? f).isSome → (n.func? f).isSome
  globals : n.globals = m.globals
  graph : ∀ f, (m.graph f).Keeps (old f) (n.graph f)

abbrev Grows (m n : Module) : Prop :=
  m.Keeps (fun _ => 0) n

variable {old : FuncId → Nat} {m n k : Module} {f : FuncId} {func : Func}

theorem Keeps.refl (old : FuncId → Nat) (m : Module) : m.Keeps old m :=
  ⟨rfl, fun _ known => known, rfl, fun _ => .refl _ _⟩

theorem Keeps.trans (first : m.Keeps old n) (second : n.Keeps old k) : m.Keeps old k where
  target := second.target.trans first.target
  func f known := second.func f (first.func f known)
  globals := second.globals.trans first.globals
  graph f := (first.graph f).trans (second.graph f)

theorem Grows.keeps (grows : m.Grows n) (old : FuncId → Nat) : m.Keeps old n where
  target := grows.target
  func := grows.func
  globals := grows.globals
  graph f := (grows.graph f).mono (Nat.zero_le _)

theorem Keeps.updateFunc (found : m.func? f = some func) {other : Func}
    (keeps : func.graph.Keeps (old f) other.graph) : m.Keeps old (m.updateFunc f fun _ => other) where
  target := rfl
  func j known := by
    rw [func?_updateFunc]
    split
    next => simpa using known
    next => exact known
  globals := rfl
  graph j := by
    rw [graph_updateFunc found]
    split
    next here => rw [here, graph_of_func? found]; exact keeps
    next => exact .refl _ _

theorem Keeps.updateGraph {change : Graph → Graph} (known : (m.func? f).isSome)
    (keeps : (m.graph f).Keeps (old f) (change (m.graph f))) : m.Keeps old (m.updateGraph f change) := by
  obtain ⟨func, found⟩ := Option.isSome_iff_exists.mp known
  rw [graph_of_func? found] at keeps
  rw [Module.updateGraph, updateFunc_congr (fun _ => func.updateGraph change) fun g again => ?_]
  · exact .updateFunc found keeps
  · rw [Option.some.inj (found.symm.trans again)]

def counts (m : Module) (f : FuncId) : Nat :=
  (m.graph f).insts.size

/-- Operands of the instructions that `m` had became others, and `stands` tells which may stand for which. -/
structure Redirected (stands : FuncId → Graph → InstId → ValueId → ValueId → Prop) (m n : Module) : Prop where
  keeps : m.Keeps m.counts n
  redirects : ∀ f, Graph.Redirects (stands f (n.graph f)) (m.graph f) (n.graph f)

/-- What stands for an operand is no constant, and goes on to stand for it. -/
structure Lasting (m : Module) (stands : FuncId → Graph → InstId → ValueId → ValueId → Prop) : Prop where
  keeps : ∀ {f g h i v new}, stands f g i v new → g.Keeps (m.counts f) h → stands f h i v new
  imm : ∀ {f g i v new}, stands f g i v new → g.imm? new = none

variable {stands : FuncId → Graph → InstId → ValueId → ValueId → Prop}

theorem Redirected.refl (m : Module) : m.Redirected stands m :=
  ⟨.refl _ m, fun _ => .of_insts_eq rfl⟩

theorem Redirected.grow (lasting : m.Lasting stands) (redirected : m.Redirected stands n) (grows : n.Grows k) :
    m.Redirected stands k where
  keeps := redirected.keeps.trans (grows.keeps _)
  redirects f := ((redirected.redirects f).mono fun _ _ _ stands =>
    lasting.keeps stands ((grows.graph f).mono (Nat.zero_le _))).grow (grows.graph f)

theorem Redirected.replaceOperand (lasting : m.Lasting stands) (redirected : m.Redirected stands n)
    {user : InstId} {value new : ValueId} (inside : user.index < m.counts f)
    (constant : ((m.graph f).imm? value).isSome) (new_stands : stands f (n.graph f) user value new) :
    n.Keeps m.counts (n.updateGraph f (·.replaceOperand user value new)) ∧
      m.Redirected stands (n.updateGraph f (·.replaceOperand user value new)) := by
  obtain ⟨imm, found⟩ := Option.isSome_iff_exists.mp constant
  have known := redirected.keeps.func f (isSome_func?_of_imm? found)
  obtain ⟨func, body⟩ := Option.isSome_iff_exists.mp known
  have keeps : n.Keeps m.counts (n.updateGraph f (·.replaceOperand user value new)) :=
    .updateGraph known (Graph.keeps_replaceOperand inside _ _)
  refine ⟨keeps, redirected.keeps.trans keeps, fun j => ?_⟩
  have lasts := keeps.graph j
  have before := redirected.redirects j
  rw [graph_updateGraph body] at lasts ⊢
  split at lasts
  next here =>
    subst here
    rw [if_pos rfl]
    have old : (n.graph j).imm? value = some imm := (redirected.keeps.graph j).imm? found
    refine (before.replaceOperand (fun i v other stands => ?_) new_stands).mono
      fun i v other stands => lasting.keeps stands lasts
    rintro rfl
    cases (lasting.imm stands).symm.trans old
  next elsewhere => rwa [if_neg elsewhere]

end Module

/-- An instruction written at the start of a function is a new one, and makes the value that is given. -/
theorem EntryCursor.insert_ok {c d : EntryCursor} {m n : Module} {f : FuncId} {inst : Inst} {ty : Ty}
    {v : ValueId} (h : c.insert m f inst ty = .ok (n, d, v)) :
    m.Grows n ∧ ∀ old, old ≤ (m.graph f).insts.size → (n.graph f).Makes old v inst := by
  obtain ⟨graph, made⟩ := insert_graph h
  obtain ⟨func, place, found, -, rfl, -, -⟩ := insert_places h
  have grown : (func.insert inst ty place).1.graph = func.graph.emit inst ty := func.graph_insert inst ty place
  refine ⟨Module.Keeps.updateFunc found (grown ▸ func.graph.keeps_emit inst ty), fun old le => ?_⟩
  rw [graph, made]
  exact Graph.makes_emit le inst ty

end VarRecovery
