import VarRecovery.Proofs.Access.Plain
import VarRecovery.Proofs.Region.Redirection

/-!
Code whose constant addresses get homes. Instructions are written that compute addresses from what is no constant, and
constants become the values they make, so that a search which comes to a new value finds no constant any more.
-/

set_option autoImplicit false

namespace VarRecovery

namespace Value

/-- The same value, but for the type of a global variable. -/
inductive Alike : Value → Value → Prop
  | same (val : Value) : Alike val val
  | global (id : GlobalId) (ty other : Ty) : Alike (.global id ty) (.global id other)

/-- No constant, and not made by one of the first `old` instructions. -/
def IsClear (old : Nat) : Value → Prop
  | .result i _ => old ≤ i.index
  | .imm _ | .expr .. => False
  | .arg .. | .global .. | .func .. => True

variable {old : Nat} {u v w : Value}

theorem Alike.trans (first : u.Alike v) (second : v.Alike w) : u.Alike w := by
  cases first with
  | same => exact second
  | global id ty => cases second <;> exact .global id ty _

theorem IsClear.alike (clear : v.IsClear old) (alike : v.Alike w) : w.IsClear old := by
  cases alike with
  | same => exact clear
  | global => trivial

end Value

namespace Inst

theorem feeds_mapOperands (f : ValueId → ValueId) (inst : Inst) :
    (inst.mapOperands f).feeds = inst.feeds.map fun u => (f u.1, u.2) := by
  cases plain : inst.isPhi with
  | false =>
    have still : (inst.mapOperands f).isPhi = false := isPhi_mapOperands.trans plain
    rw [feeds_of_not_isPhi still, feeds_of_not_isPhi plain, operands_mapOperands, List.map_map, List.map_map]
    rfl
  | true => cases inst <;> simp [isPhi, mapOperands, feeds] at plain ⊢

end Inst

namespace Graph

/-- A search for constants that comes to the value has left the first `old` instructions, and found none. -/
def Clear (old : Nat) (g : Graph) (v : ValueId) : Prop :=
  ∃ val, g.value? v = some val ∧ val.IsClear old

/-- An instruction makes an address from such a value. -/
structure Lays (old : Nat) (g : Graph) (inst : Inst) : Prop where
  isCall : inst.isCall = false
  isPhi : inst.isPhi = false
  noExpr : ∀ v ∈ inst.operands, ∀ e ty, g.value? v ≠ some (.expr e ty)
  clear : ∀ v, inst.operands.head? = some v → g.Clear old v

/-- Addresses were made, and constants became addresses where `moved` says. -/
structure Rehomes (old : Nat) (moved : InstId → ValueId → Prop) (g h : Graph) : Prop where
  size : g.insts.size ≤ h.insts.size
  value : ∀ v val, g.value? v = some val → ∃ other, h.value? v = some other ∧ val.Alike other
  expr : ∀ v e ty, h.value? v = some (.expr e ty) → g.value? v = some (.expr e ty)
  inst : ∀ i inst, g.inst? i = some inst → ∃ σ : ValueId → ValueId,
    h.inst? i = some (inst.mapOperands σ) ∧ ∀ v, σ v = v ∨ (moved i v ∧ h.Clear old (σ v))
  laid : ∀ i inst, h.inst? i = some inst → g.inst? i = none → h.Lays old inst

variable {old : Nat} {moved : InstId → ValueId → Prop} {g h k : Graph} {inst : Inst} {i : InstId} {v new : ValueId}

theorem Clear.not_imm (clear : g.Clear old v) : g.imm? v = none := by
  obtain ⟨val, found, clear⟩ := clear
  rw [imm?, found]
  cases val <;> first | rfl | cases clear

theorem Clear.not_expr (clear : g.Clear old v) (e : ConstExpr) (ty : Ty) : g.value? v ≠ some (.expr e ty) := by
  obtain ⟨val, found, clear⟩ := clear
  rw [found]
  rintro ⟨⟩
  cases clear

theorem Clear.definition? (clear : g.Clear old v) (made : g.definition? v = some i) : old ≤ i.index := by
  obtain ⟨val, found, clear⟩ := clear
  obtain ⟨ty, known⟩ := definition?_eq_some.mp made
  cases found.symm.trans known
  exact clear

theorem Rehomes.clear (rehomes : g.Rehomes old moved h) (clear : g.Clear old v) : h.Clear old v := by
  obtain ⟨val, found, clear⟩ := clear
  obtain ⟨other, after, alike⟩ := rehomes.value v val found
  exact ⟨other, after, clear.alike alike⟩

theorem Rehomes.imm? (rehomes : g.Rehomes old moved h) {c : Imm} (found : g.imm? v = some c) : h.imm? v = some c := by
  unfold Graph.imm? at found ⊢
  split at found
  next known =>
    obtain ⟨other, after, alike⟩ := rehomes.value v _ known
    cases alike
    rw [after]
    exact found
  next => cases found

theorem Lays.rehomes (lays : g.Lays old inst) (rehomes : g.Rehomes old moved h) {σ : ValueId → ValueId}
    (kept : ∀ v, σ v = v ∨ (moved i v ∧ h.Clear old (σ v))) : h.Lays old (inst.mapOperands σ) where
  isCall := (inst.isCall_mapOperands σ).trans lays.isCall
  isPhi := Inst.isPhi_mapOperands.trans lays.isPhi
  noExpr w operand e ty found := by
    rw [Inst.operands_mapOperands] at operand
    obtain ⟨v, inside, rfl⟩ := List.mem_map.mp operand
    rcases kept v with same | ⟨-, clear⟩
    · rw [same] at found
      exact lays.noExpr v inside e ty (rehomes.expr v e ty found)
    · exact clear.not_expr e ty found
  clear w first := by
    rw [Inst.operands_mapOperands, List.head?_map] at first
    obtain ⟨v, leads, rfl⟩ := Option.map_eq_some_iff.mp first
    rcases kept v with same | ⟨-, clear⟩
    · rw [same]
      exact rehomes.clear (lays.clear v leads)
    · exact clear

theorem Rehomes.trans (first : g.Rehomes old moved h) (second : h.Rehomes old moved k) : g.Rehomes old moved k where
  size := Nat.le_trans first.size second.size
  value v val found := by
    obtain ⟨middle, between, one⟩ := first.value v val found
    obtain ⟨last, after, two⟩ := second.value v middle between
    exact ⟨last, after, one.trans two⟩
  expr v e ty found := first.expr v e ty (second.expr v e ty found)
  inst i inst found := by
    obtain ⟨σ, between, one⟩ := first.inst i inst found
    obtain ⟨τ, after, two⟩ := second.inst i _ between
    refine ⟨τ ∘ σ, by rw [after, Inst.mapOperands_mapOperands], fun v => ?_⟩
    rcases one v with same | ⟨here, clear⟩
    · rw [Function.comp_apply, same]
      exact two v
    · refine .inr ⟨here, ?_⟩
      rcases two (σ v) with same | ⟨-, clear⟩
      · rw [Function.comp_apply, same]
        exact second.clear clear
      · exact clear
  laid i inst found new := by
    cases between : h.inst? i with
    | none => exact second.laid i inst found between
    | some other =>
      obtain ⟨σ, after, kept⟩ := second.inst i other between
      cases found.symm.trans after
      exact (first.laid i other between new).rehomes second kept

/-- An instruction was there, or makes an address. -/
theorem Rehomes.inst_cases (rehomes : g.Rehomes old moved h) (found : h.inst? i = some inst) :
    h.Lays old inst ∨ ∃ before σ, g.inst? i = some before ∧ inst = before.mapOperands σ ∧
      ∀ v, σ v = v ∨ (moved i v ∧ h.Clear old (σ v)) := by
  cases known : g.inst? i with
  | none => exact .inl (rehomes.laid i inst found known)
  | some before =>
    obtain ⟨σ, after, kept⟩ := rehomes.inst i before known
    cases found.symm.trans after
    exact .inr ⟨before, σ, rfl, rfl, kept⟩

/-- No instruction changes. -/
theorem Rehomes.of_insts_eq (insts : h.insts = g.insts)
    (value : ∀ v val, g.value? v = some val → ∃ other, h.value? v = some other ∧ val.Alike other)
    (expr : ∀ v e ty, h.value? v = some (.expr e ty) → g.value? v = some (.expr e ty)) : g.Rehomes old moved h where
  size := Nat.le_of_eq (congrArg Array.size insts.symm)
  value := value
  expr := expr
  inst i inst found := ⟨id, by rwa [Inst.mapOperands_id, inst?, insts], fun v => .inl rfl⟩
  laid i inst found new := by
    rw [inst?, insts] at found
    cases new.symm.trans found

theorem Rehomes.of_eq (insts : h.insts = g.insts) (values : h.values = g.values) : g.Rehomes old moved h := by
  have value (v : ValueId) : h.value? v = g.value? v := by rw [value?, values, value?]
  exact .of_insts_eq insts (fun v val found => ⟨val, (value v).trans found, .same val⟩)
    fun v e ty found => (value v).symm.trans found

theorem Rehomes.refl (g : Graph) : g.Rehomes old moved g :=
  .of_eq rfl rfl

theorem rehomes_findOrAdd (g : Graph) (p : Value → Bool) {val : Value} (noExpr : ∀ e ty, val ≠ .expr e ty) :
    g.Rehomes old moved (g.findOrAdd p val).1 := by
  rcases findOrAdd_cases g p val with ⟨v, known, -, -, same⟩ | new
  · rw [same]
    exact .refl g
  · rw [new]
    refine .of_insts_eq rfl (fun v old found => ⟨old, ?_, .same old⟩) fun v e ty found => ?_
    · rw [value?_addValue_of_lt (value?_lt found), found]
    · rw [value?_addValue] at found
      split at found
      next => exact absurd (Option.some.inj found) (noExpr e ty)
      next => exact found

theorem rehomes_setGlobalTy (g : Graph) (id : GlobalId) (ty : Ty) : g.Rehomes old moved (g.setGlobalTy id ty) := by
  refine .of_insts_eq rfl (fun v val found => ?_) fun v e ty' found => ?_
  · rw [value?_setGlobalTy, found]
    cases val with
    | global other before => exact ⟨_, rfl, .global other before _⟩
    | _ => exact ⟨_, rfl, .same _⟩
  · rw [value?_setGlobalTy] at found
    obtain ⟨val, known, same⟩ := Option.map_eq_some_iff.mp found
    cases val <;> cases same
    exact known

theorem rehomes_emit (lays : g.Lays old inst) (ty : Ty) : g.Rehomes old moved (g.emit inst ty) where
  size := by
    rw [size_insts_emit]
    exact Nat.le_succ _
  value v val found := ⟨val, value?_emit_of_some found inst ty, .same val⟩
  expr v e ty' found := by
    rw [value?_emit] at found
    split at found
    next => cases found
    next => exact found
  inst i other found := ⟨id, by rw [Inst.mapOperands_id, inst?_emit_of_some found], fun v => .inl rfl⟩
  laid i other found new := by
    rw [inst?_emit] at found
    split at found
    next =>
      cases found
      refine ⟨lays.isCall, lays.isPhi, fun v operand e ty' known => ?_, fun v first => ?_⟩
      · rw [value?_emit] at known
        split at known
        next => cases known
        next => exact lays.noExpr v operand e ty' known
      · obtain ⟨val, known, clear⟩ := lays.clear v first
        exact ⟨val, value?_emit_of_some known inst ty, clear⟩
    next => cases new.symm.trans found

theorem clear_emit (le : old ≤ g.insts.size) (inst : Inst) (ty : Ty) : (g.emit inst ty).Clear old g.nextValue :=
  ⟨.result g.nextInst ty, by rw [value?_emit, if_pos rfl], le⟩

theorem rehomes_replaceOperand (g : Graph) (here : moved i v) (clear : g.Clear old new) :
    g.Rehomes old moved (g.replaceOperand i v new) := by
  obtain ⟨same, -, size⟩ := replaceOperand_eq g i v new
  have value (w : ValueId) : (g.replaceOperand i v new).value? w = g.value? w := by
    rw [value?, congrArg Graph.values same, value?]
  refine ⟨Nat.le_of_eq size.symm, fun w val found => ⟨val, (value w).trans found, .same val⟩,
    fun w e ty found => (value w).symm.trans found, fun j inst found => ?_, fun j inst found none_ => ?_⟩
  · rw [inst?_replaceOperand, found]
    split
    next at_ =>
      subst at_
      refine ⟨fun w => if w = v then new else w, rfl, fun w => ?_⟩
      obtain ⟨val, known, clear⟩ := clear
      by_cases old : w = v
      · subst old
        exact .inr ⟨here, by simpa using ⟨val, (value new).trans known, clear⟩⟩
      · exact .inl (if_neg old)
    next => exact ⟨id, by rw [Inst.mapOperands_id], fun w => .inl rfl⟩
  · rw [inst?_replaceOperand, none_] at found
    split at found <;> cases found

/-- An instruction does not use a value. -/
def Spares (g : Graph) (i : InstId) (v : ValueId) : Prop :=
  ∃ inst, g.inst? i = some inst ∧ v ∉ inst.operands

/-- Constants do not come back. -/
theorem Rehomes.spares (rehomes : g.Rehomes old moved h) (constant : (g.imm? v).isSome) (spares : g.Spares i v) :
    h.Spares i v := by
  obtain ⟨inst, found, absent⟩ := spares
  obtain ⟨c, known⟩ := Option.isSome_iff_exists.mp constant
  obtain ⟨σ, after, kept⟩ := rehomes.inst i inst found
  refine ⟨_, after, fun operand => ?_⟩
  rw [Inst.operands_mapOperands] at operand
  obtain ⟨w, inside, rfl⟩ := List.mem_map.mp operand
  rcases kept w with same | ⟨-, clear⟩
  · exact absent (same.symm ▸ inside)
  · cases clear.not_imm.symm.trans (rehomes.imm? known)

theorem spares_replaceOperand (made : i.index < g.insts.size) (differ : new ≠ v) :
    (g.replaceOperand i v new).Spares i v := by
  obtain ⟨inst, found⟩ := exists_inst made
  refine ⟨inst.replace v new, by rw [inst?_replaceOperand, if_pos rfl, found]; rfl, fun operand => ?_⟩
  rcases Inst.mem_operands_replace.mp operand with ⟨-, other⟩ | ⟨same, -⟩
  · exact other rfl
  · exact differ same.symm

end Graph

namespace Func

/-- The same for a function, in which code is written into the entry block only. -/
structure Rehomes (old : Nat) (moved : InstId → ValueId → Prop) (f g : Func) : Prop where
  signature : g.signature = f.signature
  entry : g.listing.entry? = f.listing.entry?
  bare : ∀ b, f.listing.entry? ≠ some b → f.listing.insts b = [] → g.listing.insts b = []
  code : ∀ i ∈ g.code, i ∈ f.code ∨ f.graph.insts.size ≤ i.index
  graph : f.graph.Rehomes old moved g.graph

variable {old : Nat} {moved : InstId → ValueId → Prop} {f g h : Func} {inst : Inst} {place : Place}

theorem Rehomes.trans (first : f.Rehomes old moved g) (second : g.Rehomes old moved h) : f.Rehomes old moved h where
  signature := second.signature.trans first.signature
  entry := second.entry.trans first.entry
  bare b other empty := second.bare b (first.entry ▸ other) (first.bare b other empty)
  code i listed := by
    rcases second.code i listed with before | new
    · exact first.code i before
    · exact .inr (Nat.le_trans first.graph.size new)
  graph := first.graph.trans second.graph

/-- The code stays where it is. -/
theorem Rehomes.of_graph {graph : Graph} (rehomes : f.graph.Rehomes old moved graph) :
    f.Rehomes old moved { f with graph } :=
  ⟨rfl, rfl, fun _ _ empty => empty, fun _ listed => .inl listed, rehomes⟩

theorem Rehomes.refl (f : Func) : f.Rehomes old moved f :=
  .of_graph (.refl f.graph)

/-- What was plain stays so. -/
theorem Rehomes.plain (rehomes : f.Rehomes f.graph.insts.size moved g) (plain : f.Plain) : g.Plain := by
  intro i listed inst found u feed expr
  obtain ⟨e, ty, known⟩ := isExpr_iff.mp expr
  rcases rehomes.graph.inst_cases found with lays | ⟨before, σ, there, rfl, kept⟩
  · have operand : u.1 ∈ inst.operands := inst.map_fst_feeds ▸ List.mem_map_of_mem feed
    exact absurd known (lays.noExpr u.1 operand e ty)
  · have old : i ∈ f.code := (rehomes.code i listed).resolve_right (Nat.not_le_of_lt (Graph.inst?_lt there))
    rw [Inst.feeds_mapOperands] at feed
    obtain ⟨w, member, rfl⟩ := List.mem_map.mp feed
    rcases kept w.1 with same | ⟨-, clear⟩
    · rw [same] at known
      have before := isExpr_iff.mpr ⟨e, ty, rehomes.graph.expr w.1 e ty known⟩
      obtain ⟨b, ⟨empty, other⟩, from_⟩ := plain i old _ there w member before
      have bare := rehomes.bare b other (List.getLast?_eq_none_iff.mp empty)
      exact ⟨b, ⟨List.getLast?_eq_none_iff.mpr bare, rehomes.entry ▸ other⟩, from_⟩
    · exact absurd known (clear.not_expr e ty)

/-- A place behind another instruction, or at the top of the entry block. -/
def AtStart (f : Func) : Place → Prop
  | .top b => f.listing.entry? = some b
  | .after _ => True
  | .bottom _ | .before _ => False

theorem rehomes_insert (lays : f.graph.Lays old inst) (ty : Ty) (start : f.AtStart place) :
    f.Rehomes old moved (f.insert inst ty place).1 := by
  rw [insert_eq]
  refine ⟨rfl, ?entry, fun b other empty => ?bare, fun i listed => ?code, Graph.rehomes_emit lays ty⟩
  case entry => rw [Listing.entry?, Listing.blockIds_insert, Listing.entry?]
  case bare =>
    cases place with
    | top c =>
      change (f.listing.prepend f.graph.nextInst c).insts b = []
      rw [Listing.prepend, Listing.insts_updateBlock, if_neg, empty]
      rintro ⟨rfl, -⟩
      exact other start
    | after anchor =>
      change (f.listing.insertAfter f.graph.nextInst anchor).insts b = []
      rw [Listing.insertAfter, Listing.insts_updateAll, empty, List.flatMap_nil]
    | bottom | before => cases start
  case code =>
    rcases Listing.mem_allInsts_insert listed with rfl | before
    · exact .inr (Nat.le_refl _)
    · exact .inl before

end Func

namespace Module

/-- The same for the functions of a program. -/
structure Rehomes (old : FuncId → Nat) (moved : FuncId → InstId → ValueId → Prop) (m n : Module) : Prop where
  func : ∀ id f, m.func? id = some f → ∃ g, n.func? id = some g ∧ Func.Rehomes (old id) (moved id) f g
  known : ∀ id, (n.func? id).isSome → (m.func? id).isSome
  globals : m.globals.size ≤ n.globals.size

variable {old : FuncId → Nat} {moved : FuncId → InstId → ValueId → Prop} {m n k : Module} {id : FuncId} {f g : Func}
  {v : ValueId}

theorem Rehomes.refl (m : Module) : m.Rehomes old moved m :=
  ⟨fun _ f found => ⟨f, found, .refl f⟩, fun _ known => known, Nat.le_refl _⟩

theorem Rehomes.trans (first : m.Rehomes old moved n) (second : n.Rehomes old moved k) : m.Rehomes old moved k where
  func id f found := by
    obtain ⟨g, middle, one⟩ := first.func id f found
    obtain ⟨h, last, two⟩ := second.func id g middle
    exact ⟨h, last, one.trans two⟩
  known id there := first.known id (second.known id there)
  globals := Nat.le_trans first.globals second.globals

theorem Rehomes.of_funcs_eq (same : n.funcs = m.funcs) (globals : m.globals.size ≤ n.globals.size) :
    m.Rehomes old moved n where
  func id f found := ⟨f, by rwa [func?, same], .refl f⟩
  known id there := by rwa [func?, same] at there
  globals := globals

theorem Rehomes.map {change : Func → Func} (func : ∀ id, n.func? id = (m.func? id).map change)
    (rehomes : ∀ id f, m.func? id = some f → f.Rehomes (old id) (moved id) (change f))
    (globals : m.globals.size ≤ n.globals.size) : m.Rehomes old moved n where
  func id f found := ⟨change f, by rw [func, found]; rfl, rehomes id f found⟩
  known id there := by simpa [func] using there
  globals := globals

theorem Rehomes.updateFunc (found : m.func? id = some f) (rehomes : f.Rehomes (old id) (moved id) g) :
    m.Rehomes old moved (m.updateFunc id fun _ => g) where
  func j h known := by
    rw [func?_updateFunc]
    split
    next here =>
      subst here
      cases found.symm.trans known
      exact ⟨g, by rw [known]; rfl, rehomes⟩
    next => exact ⟨h, known, .refl h⟩
  known j there := by
    rw [func?_updateFunc] at there
    split at there
    next => simpa using there
    next => exact there
  globals := Nat.le_refl _

theorem Rehomes.updateGraph {change : Graph → Graph}
    (rehomes : (m.graph id).Rehomes (old id) (moved id) (change (m.graph id))) :
    m.Rehomes old moved (m.updateGraph id change) := by
  cases found : m.func? id with
  | none =>
    rw [Module.updateGraph, updateFunc_congr (fun f => f) (by simp [found]), updateFunc_id]
    exact .refl m
  | some f =>
    rw [graph_of_func? found] at rehomes
    rw [Module.updateGraph, updateFunc_congr (fun _ => f.updateGraph change) (by simp [found])]
    exact .updateFunc found (.of_graph rehomes)

theorem Rehomes.func?_eq_none (rehomes : m.Rehomes old moved n) (none_ : m.func? id = none) : n.func? id = none := by
  cases known : n.func? id with
  | none => rfl
  | some g =>
    have there := rehomes.known id (by rw [known]; rfl)
    simp [none_] at there

theorem Rehomes.graph (rehomes : m.Rehomes old moved n) (id : FuncId) :
    (m.graph id).Rehomes (old id) (moved id) (n.graph id) := by
  cases found : m.func? id with
  | some f =>
    obtain ⟨g, after, one⟩ := rehomes.func id f found
    rw [graph_of_func? found, graph_of_func? after]
    exact one.graph
  | none =>
    rw [Module.graph, found, Module.graph, rehomes.func?_eq_none found]
    exact .refl _

theorem Rehomes.funcName (rehomes : m.Rehomes old moved n) (id : FuncId) : n.funcName id = m.funcName id := by
  cases found : m.func? id with
  | some f =>
    obtain ⟨g, after, one⟩ := rehomes.func id f found
    simp [Module.funcName, found, after, one.signature]
  | none =>
    simp [Module.funcName, found, rehomes.func?_eq_none found]

end Module

/-- What is written at the start of a function makes a value that leads to no constant. -/
theorem EntryCursor.insert_rehomes {old : FuncId → Nat} (moved : FuncId → InstId → ValueId → Prop) {c d : EntryCursor}
    {m n : Module} {f : FuncId} {inst : Inst} {ty : Ty} {v : ValueId} (h : c.insert m f inst ty = .ok (n, d, v))
    (lays : (m.graph f).Lays (old f) inst) (sized : old f ≤ m.counts f) :
    m.Rehomes old moved n ∧ (n.graph f).Clear (old f) v := by
  obtain ⟨graph, made⟩ := insert_graph h
  obtain ⟨func, place, found, here, rfl, -, -⟩ := insert_places h
  have start : func.AtStart place := by
    rcases place?_cases here with ⟨i, -, rfl⟩ | ⟨entry, first, rfl⟩
    · trivial
    · exact first
  refine ⟨.updateFunc found (Func.rehomes_insert (Module.graph_of_func? found ▸ lays) ty start), ?_⟩
  rw [graph, made]
  exact Graph.clear_emit sized inst ty

end VarRecovery
