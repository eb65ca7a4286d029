import VarRecovery.Proofs.Region.Apart
import VarRecovery.Proofs.Region.Globals
import VarRecovery.Proofs.Region.FrameRedirection
import VarRecovery.Proofs.Region.Rehoming

/-!
Frames and global variables are homes of constant addresses: all that is written computes addresses from slots,
variables and functions, and no cell of a frame is used any more where it was.
-/

set_option autoImplicit false

namespace VarRecovery

namespace Graph

variable {old : Nat} {g : Graph} {inst : Inst} {v w : ValueId} {rest : List ValueId}

theorem not_expr_of_imm? {i : Imm} (found : g.imm? v = some i) (e : ConstExpr) (ty : Ty) :
    g.value? v ≠ some (.expr e ty) := by
  intro known
  rw [imm?, known] at found
  cases found

/-- An address is made of one value and constants. -/
theorem Lays.of_clear (call : inst.isCall = false) (phi : inst.isPhi = false) (operands : inst.operands = v :: rest)
    (clear : g.Clear old v) (constants : ∀ w ∈ rest, (g.imm? w).isSome) : g.Lays old inst where
  isCall := call
  isPhi := phi
  noExpr w operand := by
    rw [operands] at operand
    rcases List.mem_cons.mp operand with rfl | later
    · exact clear.not_expr
    · obtain ⟨i, found⟩ := Option.isSome_iff_exists.mp (constants w later)
      exact not_expr_of_imm? found
  clear w first := by
    rw [operands] at first
    cases first
    exact clear

theorem lays_alloca (ty : Ty) : g.Lays old (.alloca ty) :=
  ⟨rfl, rfl, nofun, nofun⟩

theorem lays_cast (op : CastOp) (clear : g.Clear old v) (ty : Ty) : g.Lays old (.cast op v ty) :=
  .of_clear rfl rfl rfl clear nofun

theorem clear_of_entity? {e : Entity} (found : g.entity? v = some e) : g.Clear old v := by
  obtain ⟨val, known, same⟩ := Option.bind_eq_some_iff.mp found
  refine ⟨val, known, ?_⟩
  cases val <;> trivial

theorem Rehomes.isOperand {moved : InstId → ValueId → Prop} {h : Graph} (rehomes : g.Rehomes old moved h) {c : Cell}
    (operand : c.IsOperand g) : c.IsOperand h := by
  obtain ⟨i, found⟩ := Option.isSome_iff_exists.mp operand.constant
  exact ⟨Nat.lt_of_lt_of_le operand.user rehomes.size, by rw [rehomes.imm? found]; rfl⟩

end Graph

namespace Module

variable {old : FuncId → Nat} {moved : FuncId → InstId → ValueId → Prop} {m n : Module}

theorem rehomes_addOffset (m : Module) (f : FuncId) (offset : Int) : m.Rehomes old moved (m.addOffset f offset).1 := by
  unfold addOffset
  split
  next => exact .refl m
  next func found => exact .updateFunc found (.of_graph (Graph.rehomes_findOrAdd _ _ nofun))

theorem rehomes_addGlobalValue (m : Module) (f : FuncId) (id : GlobalId) :
    m.Rehomes old moved (m.addGlobalValue f id).1 := by
  unfold addGlobalValue
  split
  next func v found _ => exact .updateFunc found (.of_graph (Graph.rehomes_findOrAdd _ _ nofun))
  next => exact .refl m

theorem rehomes_addFuncValue (m : Module) (f id : FuncId) : m.Rehomes old moved (m.addFuncValue f id).1 := by
  unfold addFuncValue
  split
  next func target found _ => exact .updateFunc found (.of_graph (Graph.rehomes_findOrAdd _ _ nofun))
  next => exact .refl m

theorem Rehomes.counts (rehomes : m.Rehomes old moved n) (sized : ∀ id, old id ≤ m.counts id) (id : FuncId) :
    old id ≤ n.counts id :=
  Nat.le_trans (sized id) (rehomes.graph id).size

theorem Rehomes.has (rehomes : m.Rehomes old moved n) {e : Entity} (has : m.Has e) : n.Has e := by
  cases e with
  | func id =>
    obtain ⟨f, found⟩ := has
    obtain ⟨g, after, -⟩ := rehomes.func id f found
    exact ⟨g, after⟩
  | var id =>
    obtain ⟨v, found⟩ := has
    have inside := (Array.getElem?_eq_some_iff.mp found).1
    exact ⟨_, Array.getElem?_eq_getElem (Nat.lt_of_lt_of_le inside rehomes.globals)⟩

/-- A constant takes a home: the instruction uses it no more. -/
theorem rehomes_replaceOperand {f : FuncId} {c : Cell} {new : ValueId} (here : moved f c.user c.value)
    (operand : c.IsOperand (m.graph f)) (clear : (m.graph f).Clear (old f) new) :
    m.Rehomes old moved (m.updateGraph f (·.replaceOperand c.user c.value new)) ∧
      ((m.updateGraph f (·.replaceOperand c.user c.value new)).graph f).Spares c.user c.value := by
  obtain ⟨i, constant⟩ := Option.isSome_iff_exists.mp operand.constant
  obtain ⟨func, found⟩ := Option.isSome_iff_exists.mp (isSome_func?_of_imm? constant)
  refine ⟨.updateGraph (Graph.rehomes_replaceOperand _ here clear), ?_⟩
  rw [graph_updateGraph found, if_pos rfl]
  refine Graph.spares_replaceOperand operand.user ?_
  rintro rfl
  cases clear.not_imm.symm.trans constant

end Module

namespace FrameRedirection

/-- What holds of a redirection that began with `m`: what is remembered leads to no constant. -/
structure Homed (old : FuncId → Nat) (moved : FuncId → InstId → ValueId → Prop) (m : Module) (f : FuncId)
    (bytes : ValueId) (s : FrameRedirection) : Prop where
  rehomes : m.Rehomes old moved s.module
  bytes : (s.module.graph f).Clear (old f) bytes
  memo : ∀ address ty v, ((address, ty), v) ∈ s.memo → (s.module.graph f).Clear (old f) v

variable {old : FuncId → Nat} {moved : FuncId → InstId → ValueId → Prop} {m : Module} {f : FuncId} {base : Nat}
  {bytes int : ValueId} {s s' : FrameRedirection} {c : Cell} {ty : Ty}

theorem Homed.keep (homed : s.Homed old moved m f bytes) (rehomes : s.module.Rehomes old moved s'.module)
    (memo : ∀ address ty v, ((address, ty), v) ∈ s'.memo →
      ((address, ty), v) ∈ s.memo ∨ (s'.module.graph f).Clear (old f) v) : s'.Homed old moved m f bytes where
  rehomes := homed.rehomes.trans rehomes
  bytes := (rehomes.graph f).clear homed.bytes
  memo address ty v member :=
    (memo address ty v member).elim (fun before => (rehomes.graph f).clear (homed.memo address ty v before)) id

theorem address_homed (homed : s.Homed old moved m f bytes) (sized : ∀ id, old id ≤ m.counts id)
    (func : (m.func? f).isSome) (h : s.address f base bytes c ty = .ok (s', int)) :
    s.module.Rehomes old moved s'.module ∧ s'.Homed old moved m f bytes ∧ (s'.module.graph f).Clear (old f) int := by
  rcases address_cases h with ⟨known, rfl⟩ | ⟨m₁, offset, m₂, cursor₂, ptr, m₃, cursor₃, added, gep, cast, rfl⟩
  · exact ⟨.refl _, homed, homed.memo _ _ _ known⟩
  · obtain ⟨body, found⟩ := Option.isSome_iff_exists.mp func
    obtain ⟨now, known, -⟩ := homed.rehomes.func f body found
    have numbered : s.module.Rehomes old moved _ := s.module.rehomes_addOffset f ((c.address - base : Nat) : Int)
    obtain ⟨-, constant⟩ := Module.addOffset_spec (m := s.module) (f := f) (by rw [known]; rfl)
      ((c.address - base : Nat) : Int)
    rw [added] at numbered constant
    have sized₁ := (homed.rehomes.trans numbered).counts sized
    obtain ⟨pointed, pointer⟩ := EntryCursor.insert_rehomes moved gep (.of_clear rfl rfl rfl
      ((numbered.graph f).clear homed.bytes) (List.forall_mem_singleton.mpr (by rw [constant]; rfl))) (sized₁ f)
    obtain ⟨last, made⟩ := EntryCursor.insert_rehomes moved cast (Graph.lays_cast _ pointer ty)
      (pointed.counts sized₁ f)
    have whole := (numbered.trans pointed).trans last
    refine ⟨whole, homed.keep whole fun address ty' v member => ?_, made⟩
    rcases List.mem_cons.mp member with same | before
    · cases same
      exact .inr made
    · exact .inl before

theorem redirect_homed (homed : s.Homed old moved m f bytes) (sized : ∀ id, old id ≤ m.counts id)
    (here : moved f c.user c.value) (operand : c.IsOperand (m.graph f)) (h : s.redirect f base bytes c = .ok s') :
    s.module.Rehomes old moved s'.module ∧ s'.Homed old moved m f bytes ∧
      (s'.module.graph f).Spares c.user c.value := by
  obtain ⟨i, constant⟩ := Option.isSome_iff_exists.mp operand.constant
  obtain ⟨⟨s₁, int⟩, addressed, h⟩ := Recovering.bind_eq_ok h
  obtain ⟨first, homed₁, clear⟩ := address_homed homed sized (Module.isSome_func?_of_imm? constant) addressed
  cases h
  obtain ⟨last, spares⟩ := Module.rehomes_replaceOperand here ((homed₁.rehomes.graph f).isOperand operand) clear
  exact ⟨first.trans last, homed₁.keep last fun _ _ _ => .inl, spares⟩

theorem redirectAll_homed {cells : List Cell} (homed : s.Homed old moved m f bytes)
    (sized : ∀ id, old id ≤ m.counts id) (movable : ∀ c ∈ cells, moved f c.user c.value ∧ c.IsOperand (m.graph f))
    (h : redirectAll f base bytes cells s = .ok s') : s.module.Rehomes old moved s'.module ∧
      s'.Homed old moved m f bytes ∧ ∀ c ∈ cells, (s'.module.graph f).Spares c.user c.value := by
  induction cells generalizing s with
  | nil =>
    cases h
    exact ⟨.refl _, homed, nofun⟩
  | cons c cells ih =>
    obtain ⟨s₁, first, rest⟩ := Recovering.bind_eq_ok h
    obtain ⟨⟨here, operand⟩, others⟩ := List.forall_mem_cons.mp movable
    obtain ⟨_, homed₁, spares⟩ := redirect_homed homed sized here operand first
    obtain ⟨later, homed', all⟩ := ih homed₁ others rest
    have constant := ((homed₁.rehomes.graph f).isOperand operand).constant
    exact ⟨‹s.module.Rehomes old moved s₁.module›.trans later, homed',
      List.forall_mem_cons.mpr ⟨(later.graph f).spares constant spares, all⟩⟩

end FrameRedirection

namespace Module

variable {old : FuncId → Nat} {moved : FuncId → InstId → ValueId → Prop} {m n : Module} {cursor last : EntryCursor}

theorem buildFrame_rehomes {f : FuncId} {cells : List Cell} {stackPointer : Option Nat} {redzone : Nat} {frame : Frame}
    (sized : ∀ id, old id ≤ m.counts id) (movable : ∀ c ∈ cells, moved f c.user c.value ∧ c.IsOperand (m.graph f))
    {ws stop : List Warning}
    (run : (m.buildFrame f cells stackPointer redzone cursor).run.run ws = (.ok (n, last, frame), stop)) :
    m.Rehomes old moved n ∧ ∀ c ∈ cells, (n.graph f).Spares c.user c.value := by
  obtain ⟨base, types, ty, m₁, cursor₁, slot, m₂, cursor₂, bytes, s, allocated, cast, redirected, rfl, rfl⟩ :=
    buildFrame_ok run
  have typed : m.Rehomes old moved { m with types } := .of_funcs_eq rfl (Nat.le_refl _)
  obtain ⟨first, pointer⟩ := EntryCursor.insert_rehomes moved allocated (Graph.lays_alloca ty) (sized f)
  obtain ⟨second, byte⟩ := EntryCursor.insert_rehomes moved cast (Graph.lays_cast _ pointer _)
    ((typed.trans first).counts sized f)
  have start : FrameRedirection.Homed old moved m f bytes ⟨m₂, cursor₂, [], [slot]⟩ :=
    ⟨(typed.trans first).trans second, byte, nofun⟩
  obtain ⟨-, homed, spares⟩ := FrameRedirection.redirectAll_homed start sized
    (fun c member => movable c (List.mem_mergeSort.mp member)) redirected
  exact ⟨homed.rehomes, fun c member => spares c (List.mem_mergeSort.mpr member)⟩

end Module

namespace Run

variable {old : FuncId → Nat} {moved : FuncId → InstId → ValueId → Prop}

theorem Declares.rehomes {r : Run} {m n : Module} {t u : EntityTable} (declares : r.Declares m t n u) :
    m.Rehomes old moved n := by
  cases declares with
  | settled => exact .refl m
  | outgrown id =>
    refine .map (Module.func?_setGlobalTy _ id _) (fun j f found => .of_graph ?_) ?_
    · exact Graph.rehomes_setGlobalTy f.graph id _
    · simp [Module.setGlobalTy]
  | created => exact .of_funcs_eq rfl (by simp [create, Module.pushGlobal])

theorem declareAll_rehomes (runs : List Run) (m : Module) (t : EntityTable) :
    m.Rehomes old moved (declareAll runs m t).1 := by
  induction runs generalizing m t with
  | nil => exact .refl m
  | cons r rs ih => exact (r.declares m t).rehomes.trans (ih _ _)

end Run

namespace GlobalRedirection

/-- What holds of a redirection that began with `m`: what is remembered leads to no constant. -/
structure Homed (old : FuncId → Nat) (moved : FuncId → InstId → ValueId → Prop) (m : Module) (s : GlobalRedirection) :
    Prop where
  rehomes : m.Rehomes old moved s.module
  memo : ∀ f address ty v, ((f, address, ty), v) ∈ s.memo → (s.module.graph f).Clear (old f) v
  bases : ∀ f ptr ty v, ((f, ptr, ty), v) ∈ s.bases → (s.module.graph f).Clear (old f) v

variable {old : FuncId → Nat} {moved : FuncId → InstId → ValueId → Prop} {m : Module} {t : EntityTable}
  {s s' : GlobalRedirection} {f : FuncId} {v ptr : ValueId} {ty : Ty} {c : Cell} {offset : Nat} {int : Option ValueId}

/-- Code grows or constants take their homes, and what is remembered anew leads to no constant. -/
theorem Homed.keep (homed : s.Homed old moved m) (rehomes : s.module.Rehomes old moved s'.module)
    (memo : ∀ key v, (key, v) ∈ s'.memo → (key, v) ∈ s.memo ∨ (s'.module.graph key.1).Clear (old key.1) v)
    (bases : ∀ key v, (key, v) ∈ s'.bases → (key, v) ∈ s.bases ∨ (s'.module.graph key.1).Clear (old key.1) v) :
    s'.Homed old moved m where
  rehomes := homed.rehomes.trans rehomes
  memo f address ty v member :=
    (memo _ v member).elim (fun before => (rehomes.graph f).clear (homed.memo f address ty v before)) id
  bases f ptr ty v member :=
    (bases _ v member).elim (fun before => (rehomes.graph f).clear (homed.bases f ptr ty v before)) id

theorem entity?_homed (homed : s.Homed old moved m) (exist : t.Exists m) (func : (m.func? f).isSome) {address : Nat}
    (h : s.entity? t f address = some (s', ptr, offset)) :
    s'.Homed old moved m ∧ (s'.module.graph f).Clear (old f) ptr := by
  obtain ⟨body, found⟩ := Option.isSome_iff_exists.mp func
  obtain ⟨now, known, -⟩ := homed.rehomes.func f body found
  have there : (s.module.func? f).isSome := by rw [known]; rfl
  rcases entity?_cases h with ⟨id, holds, rfl, rfl⟩ | ⟨id, holds, rfl, rfl⟩
  · have pointer := (Module.addFuncValue_spec there (homed.rehomes.has (exist.has holds))).2
    exact ⟨homed.keep (s.module.rehomes_addFuncValue f id) (fun _ _ => .inl) fun _ _ => .inl,
      Graph.clear_of_entity? pointer⟩
  · have pointer := (Module.addGlobalValue_spec there (homed.rehomes.has (exist.has holds))).2
    exact ⟨homed.keep (s.module.rehomes_addGlobalValue f id) (fun _ _ => .inl) fun _ _ => .inl,
      Graph.clear_of_entity? pointer⟩

theorem base_homed (homed : s.Homed old moved m) (sized : ∀ id, old id ≤ m.counts id)
    (clear : (s.module.graph f).Clear (old f) ptr) (h : s.base f ptr ty = .ok (s', v)) :
    s'.Homed old moved m ∧ (s'.module.graph f).Clear (old f) v := by
  rcases base_cases h with ⟨known, rfl⟩ | ⟨module, cursor, written, rfl⟩
  · exact ⟨homed, homed.bases f ptr ty v known⟩
  · obtain ⟨rehomes, number⟩ := EntryCursor.insert_rehomes moved written (Graph.lays_cast _ clear ty)
      (homed.rehomes.counts sized f)
    refine ⟨homed.keep rehomes (fun _ _ => .inl) fun key w member => ?_, number⟩
    rcases List.mem_cons.mp member with same | before
    · cases same
      exact .inr number
    · exact .inl before

theorem displace_homed (homed : s.Homed old moved m) (sized : ∀ id, old id ≤ m.counts id)
    (clear : (s.module.graph f).Clear (old f) v) (h : s.displace f v offset ty = .ok (s', int)) :
    s'.Homed old moved m ∧ ∀ w, int = some w → (s'.module.graph f).Clear (old f) w := by
  rcases displace_cases h with ⟨-, rfl, rfl⟩ | ⟨i, func, module, cursor, made, -, found, written, rfl, rfl⟩ | ⟨-, rfl, rfl⟩
  · refine ⟨homed, ?_⟩
    rintro _ ⟨⟩
    exact clear
  · have added : func.graph.Rehomes (old f) (moved f) (func.graph.addImm i).1 := Graph.rehomes_findOrAdd _ _ nofun
    have numbered : s.module.Rehomes old moved (s.module.updateFunc f fun _ => (func.addImm i).1) :=
      .updateFunc found (.of_graph added)
    have constant : ((s.module.updateFunc f fun _ => (func.addImm i).1).graph f).imm? (func.addImm i).2 = some i := by
      rw [Module.graph_updateFunc found, if_pos rfl]
      exact func.graph.imm?_addImm_self i
    have sum : ((s.module.updateFunc f fun _ => (func.addImm i).1).graph f).Lays (old f)
        (.binary .add v (func.addImm i).2) :=
      .of_clear rfl rfl rfl ((numbered.graph f).clear clear) (List.forall_mem_singleton.mpr (by rw [constant]; rfl))
    obtain ⟨rehomes, number⟩ := EntryCursor.insert_rehomes moved written sum
      ((homed.rehomes.trans numbered).counts sized f)
    refine ⟨homed.keep (numbered.trans rehomes) (fun _ _ => .inl) fun _ _ => .inl, ?_⟩
    rintro _ ⟨⟩
    exact number
  · exact ⟨homed, nofun⟩

theorem resolve_homed (homed : s.Homed old moved m) (sized : ∀ id, old id ≤ m.counts id) (exist : t.Exists m)
    (func : (m.func? c.func).isSome) (h : s.resolve t c ty = .ok (s', int)) :
    s'.Homed old moved m ∧ ∀ w, int = some w → (s'.module.graph c.func).Clear (old c.func) w := by
  rcases resolve_cases h with ⟨w, known, rfl, rfl⟩ | ⟨-, rfl, rfl⟩ |
    ⟨s₁, ptr, offset, s₂, base, s₃, memo, pointers, placed, cast, displaced, rfl, remembered⟩
  · refine ⟨homed, ?_⟩
    rintro _ ⟨⟩
    exact homed.memo _ _ _ _ known
  · exact ⟨homed, nofun⟩
  · obtain ⟨homed₁, pointer⟩ := entity?_homed homed exist func placed
    obtain ⟨homed₂, number⟩ := base_homed homed₁ sized pointer cast
    obtain ⟨homed₃, values⟩ := displace_homed homed₂ sized number displaced
    refine ⟨homed₃.keep (.refl _) (fun key w member => ?_) fun _ _ => .inl, values⟩
    exact (remembered key w member).imp_right fun ⟨same, made⟩ => same ▸ values w made

theorem redirect_homed (homed : s.Homed old moved m) (sized : ∀ id, old id ≤ m.counts id) (exist : t.Exists m)
    (here : moved c.func c.user c.value) (operand : c.IsOperand (m.graph c.func)) (h : s.redirect t c = .ok s') :
    s'.Homed old moved m := by
  obtain ⟨i, constant⟩ := Option.isSome_iff_exists.mp operand.constant
  obtain ⟨s₁, int, resolved, last⟩ := redirect_cases h
  obtain ⟨homed₁, clear⟩ := resolve_homed homed sized exist (Module.isSome_func?_of_imm? constant) resolved
  rcases last with ⟨-, rfl⟩ | ⟨new, made, rfl⟩
  · exact homed₁
  · obtain ⟨last, -⟩ :=
      Module.rehomes_replaceOperand here ((homed₁.rehomes.graph c.func).isOperand operand) (clear new made)
    exact homed₁.keep last (fun _ _ => .inl) fun _ _ => .inl

end GlobalRedirection

namespace Module

variable {old : FuncId → Nat} {moved : FuncId → InstId → ValueId → Prop} {m n : Module} {t u : EntityTable}
  {cells : List Cell} {cursor last : EntryCursor} {built : BuiltGlobals}

theorem buildGlobals_rehomes (sized : ∀ id, old id ≤ m.counts id) (exist : t.Exists m)
    (movable : ∀ c ∈ cells, moved c.func c.user c.value ∧ c.IsOperand (m.graph c.func)) {ws stop : List Warning}
    (run : (m.buildGlobals t cells cursor).run.run ws = (.ok (n, u, last, built), stop)) : m.Rehomes old moved n := by
  obtain ⟨runs, s, -, rfl, redirected, rfl, rfl⟩ := buildGlobals_ok run
  have declared : m.Rehomes old moved _ := Run.declareAll_rehomes runs m t
  obtain ⟨-, exist', -⟩ := Run.declareAll_exist runs exist
  have start : GlobalRedirection.Homed old moved (Run.declareAll runs m t).1
      ⟨(Run.declareAll runs m t).1, cursor, [], [], []⟩ := ⟨.refl _, nofun, nofun⟩
  have homed : s.Homed old moved (Run.declareAll runs m t).1 :=
    Recovering.foldlM_eq_ok (motive := fun s => s.Homed old moved (Run.declareAll runs m t).1) start
      (fun c _ _ member before added => by
        obtain ⟨here, operand⟩ := movable c (List.mem_mergeSort.mp member)
        exact GlobalRedirection.redirect_homed before (declared.counts sized) exist' here
          ((declared.graph c.func).isOperand operand) added) redirected
  exact declared.trans homed.rehomes

end Module

end VarRecovery
