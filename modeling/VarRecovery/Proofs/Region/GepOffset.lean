import VarRecovery.Proofs.Access.Recorded
import VarRecovery.Proofs.Region.Globals
import VarRecovery.Proofs.Region.OneHome
import VarRecovery.Proofs.Region.Outgrowth

/-!
How far behind its base an address of a part lies. The indices of a path stay when variables are built, but what they
lead to depends on the type that the base points to, and that changes with a variable that is outgrown.
-/

set_option autoImplicit false

namespace VarRecovery

namespace DataLayout

/-- How far behind the start of a value of a type the part lies that indices lead to. -/
def partOffset? (L : DataLayout) : Ty → List Int → Option Int
  | _, [] => some 0
  | .array elem _, n :: ns => do return n * (← L.allocSize? elem) + (← L.partOffset? elem ns)
  | .vector elem _, n :: ns => do return n * (← L.allocSize? elem) + (← L.partOffset? elem ns)
  | .struct name fields packed, .ofNat k :: ns => do
    return (← L.fieldOffset? (.struct name fields packed) k) + (← L.partOffset? (← fields[k]?) ns)
  | _, _ => none

/-- The same for a pointer to values of a type, the first index of which is among these. -/
def gepOffset? (L : DataLayout) (pointee : Ty) : List Int → Option Int
  | [] => some 0
  | n :: ns => do return n * (← L.allocSize? pointee) + (← L.partOffset? pointee ns)

end DataLayout

namespace Graph

/-- The numbers of a path, if all of it is constant. -/
def indices? (g : Graph) (path : List ValueId) : Option (List Int) :=
  path.mapM fun v => (g.imm? v).map Imm.toInt

def HasTy (g : Graph) (v : ValueId) (ty : Ty) : Prop :=
  ∃ val, g.value? v = some val ∧ val.ty = ty

variable {g h k : Graph} {v : ValueId} {ty : Ty} {old : Nat}

theorem HasTy.ty_eq (has : g.HasTy v ty) : g.ty v = ty := by
  obtain ⟨val, found, rfl⟩ := has
  rw [Graph.ty, found]
  rfl

theorem HasTy.keep (has : g.HasTy v ty) (keeps : g.Keeps old h) : h.HasTy v ty := by
  obtain ⟨val, found, same⟩ := has
  exact ⟨val, keeps.value v val found, same⟩

theorem hasTy_emit (g : Graph) (inst : Inst) (ty : Ty) : (g.emit inst ty).HasTy g.nextValue ty :=
  ⟨.result g.nextInst ty, by rw [value?_emit, if_pos rfl], rfl⟩

theorem imm?_eq_some {i : Imm} : g.imm? v = some i ↔ g.value? v = some (.imm i) := by
  unfold Graph.imm?
  split
  next known => rw [known, Option.some.injEq, Option.some.injEq, Value.imm.injEq]
  next other =>
    refine ⟨nofun, fun known => absurd known (other i)⟩

/-- A constant path is the same number for number where its constants are. -/
theorem indices?_of_imm? {path : List ValueId} (same : ∀ v i, g.imm? v = some i → h.imm? v = some i) {ns : List Int}
    (known : g.indices? path = some ns) : h.indices? path = some ns := by
  induction path generalizing ns with
  | nil => exact known
  | cons v path ih =>
    rw [indices?, List.mapM_cons] at known ⊢
    obtain ⟨n, first, known⟩ := Option.bind_eq_some_iff.mp known
    obtain ⟨rest, others, done⟩ := Option.bind_eq_some_iff.mp known
    obtain ⟨i, found, number⟩ := Option.map_eq_some_iff.mp first
    refine Option.bind_eq_some_iff.mpr ⟨n, ?_, Option.bind_eq_some_iff.mpr ⟨rest, ih others, done⟩⟩
    rw [same v i found, ← number]
    rfl

/-- Values stay. An instruction uses the values it used, or in the place of those that are named others of the same
type. -/
structure Rewires (named : InstId → ValueId → Prop) (g h : Graph) : Prop where
  value : ∀ v val, g.value? v = some val → h.value? v = some val
  inst : ∀ i inst, g.inst? i = some inst → ∃ σ : ValueId → ValueId, h.inst? i = some (inst.mapOperands σ) ∧
    (∀ v, σ v = v ∨ named i v) ∧ ∀ v val, g.value? v = some val → h.HasTy (σ v) val.ty

variable {named : InstId → ValueId → Prop}

theorem Rewires.refl (g : Graph) : Rewires named g g where
  value _ _ found := found
  inst i inst found := ⟨id, by rwa [Inst.mapOperands_id], fun _ => .inl rfl, fun v val known => ⟨val, known, rfl⟩⟩

theorem Rewires.grow (rewires : Rewires named g h) (keeps : h.Keeps 0 k) : Rewires named g k where
  value v val found := keeps.value v val (rewires.value v val found)
  inst i inst found := by
    obtain ⟨σ, after, moved, typed⟩ := rewires.inst i inst found
    exact ⟨σ, keeps.inst i _ (Nat.zero_le _) after, moved, fun v val known => (typed v val known).keep keeps⟩

/-- What takes the place of a value has the type that the value had before code was added. -/
theorem Rewires.replaceOperand (rewires : Rewires named g h) (keeps : h.Keeps 0 k) {i : InstId} {old new : ValueId}
    (names : named i old) (fits : ∀ ty, h.HasTy old ty → k.HasTy new ty) :
    Rewires named g (k.replaceOperand i old new) := by
  have value (v : ValueId) : (k.replaceOperand i old new).value? v = k.value? v := by
    rw [value?, congrArg Graph.values (replaceOperand_eq k i old new).1]
    rfl
  have typed {v : ValueId} {ty : Ty} : (k.replaceOperand i old new).HasTy v ty ↔ k.HasTy v ty := by
    rw [HasTy, HasTy, value]
  refine ⟨fun v val found => (value v).trans ((rewires.grow keeps).value v val found), fun j inst found => ?_⟩
  obtain ⟨σ, after, moved, kept⟩ := rewires.inst j inst found
  rw [inst?_replaceOperand, keeps.inst j _ (Nat.zero_le _) after]
  split
  next here =>
    subst here
    refine ⟨fun v => if σ v = old then new else σ v, ?_, fun v => ?_, fun v val known => typed.mpr ?_⟩
    · rw [Option.map_some, Inst.replace, Inst.mapOperands_mapOperands]
      rfl
    · dsimp only
      split
      next last => exact .inr ((moved v).elim (fun same => (same.symm.trans last) ▸ names) id)
      next => exact moved v
    · dsimp only
      split
      next last => exact fits val.ty (last ▸ kept v val known)
      next => exact (kept v val known).keep keeps
  next => exact ⟨σ, rfl, moved, fun v val known => typed.mpr ((kept v val known).keep keeps)⟩

end Graph

namespace Module

/-- A cell names an operand. -/
def Names (cells : List Cell) (f : FuncId) (i : InstId) (v : ValueId) : Prop :=
  ∃ c ∈ cells, c.func = f ∧ c.user = i ∧ c.value = v

/-- The same for the functions of a program, whose variables stay as they are. -/
structure Rewires (cells : List Cell) (m n : Module) : Prop where
  target : n.target = m.target
  globals : n.globals = m.globals
  graph : ∀ f, Graph.Rewires (Names cells f) (m.graph f) (n.graph f)

variable {m n k : Module} {cells : List Cell} {f : FuncId}

theorem Rewires.refl (cells : List Cell) (m : Module) : m.Rewires cells m :=
  ⟨rfl, rfl, fun _ => .refl _⟩

theorem Rewires.grow (rewires : m.Rewires cells n) (grows : n.Grows k) : m.Rewires cells k where
  target := grows.target.trans rewires.target
  globals := grows.globals.trans rewires.globals
  graph f := (rewires.graph f).grow (grows.graph f)

theorem Rewires.replaceOperand (rewires : m.Rewires cells n) (grows : n.Grows k) {i : InstId} {old new : ValueId}
    (names : Names cells f i old) (known : (k.func? f).isSome)
    (fits : ∀ ty, (n.graph f).HasTy old ty → (k.graph f).HasTy new ty) :
    m.Rewires cells (k.updateGraph f (·.replaceOperand i old new)) := by
  obtain ⟨func, known⟩ := Option.isSome_iff_exists.mp known
  have grown := rewires.grow grows
  refine ⟨grown.target, grown.globals, fun j => ?_⟩
  rw [graph_updateGraph known]
  split
  next here => rw [here]; exact (rewires.graph f).replaceOperand (grows.graph f) names fits
  next => exact grown.graph j

theorem isSome_func?_of_hasTy {v : ValueId} {ty : Ty} (has : (m.graph f).HasTy v ty) : (m.func? f).isSome := by
  obtain ⟨val, found, -⟩ := has
  cases known : m.func? f with
  | some func => rfl
  | none => rw [graph, known] at found; cases found

theorem grows_addGlobalValue (m : Module) (f : FuncId) (id : GlobalId) : m.Grows (m.addGlobalValue f id).1 := by
  unfold addGlobalValue
  split
  next func v found _ => exact .updateFunc found (func.graph.keeps_findOrAdd _ _)
  next => exact .refl _ m

theorem grows_addFuncValue (m : Module) (f id : FuncId) : m.Grows (m.addFuncValue f id).1 := by
  unfold addFuncValue
  split
  next func target found _ => exact .updateFunc found (func.graph.keeps_findOrAdd _ _)
  next => exact .refl _ m

end Module

theorem EntryCursor.insert_hasTy {c d : EntryCursor} {m n : Module} {f : FuncId} {inst : Inst} {ty : Ty} {v : ValueId}
    (h : c.insert m f inst ty = .ok (n, d, v)) : (n.graph f).HasTy v ty := by
  obtain ⟨graph, made⟩ := insert_graph h
  rw [graph, made]
  exact (m.graph f).hasTy_emit inst ty

namespace GlobalRedirection

/-- What holds of a redirection that began with `m`: what is remembered has the type that is remembered with it. -/
structure Rewires (m : Module) (cells : List Cell) (s : GlobalRedirection) : Prop where
  code : m.Rewires cells s.module
  bases : ∀ f ptr ty v, ((f, ptr, ty), v) ∈ s.bases → (s.module.graph f).HasTy v ty
  memo : ∀ f address ty v, ((f, address, ty), v) ∈ s.memo → (s.module.graph f).HasTy v ty

variable {m : Module} {t : EntityTable} {cells : List Cell} {s s' : GlobalRedirection} {f : FuncId} {ty : Ty}

theorem Rewires.start (m : Module) (cells : List Cell) (cursor : EntryCursor) :
    Rewires m cells ⟨m, cursor, [], [], []⟩ where
  code := .refl cells m
  bases _ _ _ _ member := nomatch member
  memo _ _ _ _ member := nomatch member

/-- Code grows, and what is remembered anew has the type that is remembered with it. -/
theorem Rewires.grow (rewires : s.Rewires m cells) (grows : s.module.Grows s'.module)
    (bases : ∀ f ptr ty v, ((f, ptr, ty), v) ∈ s'.bases →
      ((f, ptr, ty), v) ∈ s.bases ∨ (s'.module.graph f).HasTy v ty)
    (memo : ∀ f address ty v, ((f, address, ty), v) ∈ s'.memo →
      ((f, address, ty), v) ∈ s.memo ∨ (s'.module.graph f).HasTy v ty) : s'.Rewires m cells where
  code := rewires.code.grow grows
  bases f ptr ty v member :=
    (bases f ptr ty v member).elim (fun old => (rewires.bases f ptr ty v old).keep (grows.graph f)) id
  memo f address ty v member :=
    (memo f address ty v member).elim (fun old => (rewires.memo f address ty v old).keep (grows.graph f)) id

theorem entity?_rewires (rewires : s.Rewires m cells) {address offset : Nat} {ptr : ValueId}
    (h : s.entity? t f address = some (s', ptr, offset)) : s'.Rewires m cells ∧ s.module.Grows s'.module := by
  rcases entity?_cases h with ⟨id, -, rfl, -⟩ | ⟨id, -, rfl, -⟩
  · have grows := s.module.grows_addFuncValue f id
    exact ⟨rewires.grow grows (fun _ _ _ _ => .inl) fun _ _ _ _ => .inl, grows⟩
  · have grows := s.module.grows_addGlobalValue f id
    exact ⟨rewires.grow grows (fun _ _ _ _ => .inl) fun _ _ _ _ => .inl, grows⟩

theorem base_rewires (rewires : s.Rewires m cells) {ptr v : ValueId} (h : s.base f ptr ty = .ok (s', v)) :
    s'.Rewires m cells ∧ s.module.Grows s'.module ∧ (s'.module.graph f).HasTy v ty := by
  rcases base_cases h with ⟨known, rfl⟩ | ⟨module, cursor, written, rfl⟩
  · exact ⟨rewires, .refl _ _, rewires.bases f ptr ty v known⟩
  · have new := EntryCursor.insert_hasTy written
    have grows := (EntryCursor.insert_ok written).1
    refine ⟨rewires.grow grows (fun j p ty' w member => ?_) fun _ _ _ _ => .inl, grows, new⟩
    rcases List.mem_cons.mp member with same | before
    · cases same
      exact .inr new
    · exact .inl before

theorem displace_rewires (rewires : s.Rewires m cells) {v : ValueId} (typed : (s.module.graph f).HasTy v ty)
    {sum : Option ValueId} {offset : Nat} (h : s.displace f v offset ty = .ok (s', sum)) :
    s'.Rewires m cells ∧ s.module.Grows s'.module ∧ ∀ int, sum = some int → (s'.module.graph f).HasTy int ty := by
  rcases displace_cases h with ⟨-, rfl, rfl⟩ | ⟨i, func, module, cursor, made, -, found, written, rfl, rfl⟩ | ⟨-, rfl, rfl⟩
  · exact ⟨rewires, .refl _ _, fun int same => Option.some.inj same ▸ typed⟩
  · have added : s.module.Grows (s.module.updateFunc f fun _ => (func.addImm i).1) :=
      .updateFunc found (func.graph.keeps_findOrAdd _ _)
    have grows := added.trans (EntryCursor.insert_ok written).1
    exact ⟨rewires.grow grows (fun _ _ _ _ => .inl) fun _ _ _ _ => .inl, grows,
      fun int same => Option.some.inj same ▸ EntryCursor.insert_hasTy written⟩
  · exact ⟨rewires, .refl _ _, fun int same => nomatch same⟩

theorem resolve_rewires (rewires : s.Rewires m cells) {c : Cell} {int : Option ValueId}
    (h : s.resolve t c ty = .ok (s', int)) :
    s'.Rewires m cells ∧ s.module.Grows s'.module ∧ ∀ v, int = some v → (s'.module.graph c.func).HasTy v ty := by
  rcases resolve_cases h with ⟨v, known, rfl, rfl⟩ | ⟨-, rfl, rfl⟩ |
    ⟨s₁, ptr, offset, s₂, base, s₃, memo, pointers, placed, cast, displaced, rfl, remembered⟩
  · exact ⟨rewires, .refl _ _, fun w same => Option.some.inj same ▸ rewires.memo _ _ _ _ known⟩
  · exact ⟨rewires, .refl _ _, fun v same => nomatch same⟩
  · obtain ⟨rewires₁, grows₁⟩ := entity?_rewires rewires placed
    obtain ⟨rewires₂, grows₂, typed⟩ := base_rewires rewires₁ cast
    obtain ⟨rewires₃, grows₃, reached⟩ := displace_rewires rewires₂ typed displaced
    refine ⟨rewires₃.grow (.refl _ _) (fun _ _ _ _ => .inl) fun j a ty' u member => ?_,
      (grows₁.trans grows₂).trans grows₃, reached⟩
    rcases remembered _ u member with before | ⟨same, made⟩
    · exact .inl before
    · cases same
      exact .inr (reached u made)

theorem redirect_rewires (rewires : s.Rewires m cells) {c : Cell} (member : c ∈ cells)
    (h : s.redirect t c = .ok s') : s'.Rewires m cells := by
  obtain ⟨s₁, int, resolved, last⟩ := redirect_cases h
  obtain ⟨rewires₁, grows, typed⟩ := resolve_rewires rewires resolved
  rcases last with ⟨-, rfl⟩ | ⟨new, made, rfl⟩
  · exact rewires₁
  · have here := typed new made
    have known := Module.isSome_func?_of_hasTy here
    have values (f : FuncId) (v : ValueId) : ((s₁.module.updateGraph c.func
        (·.replaceOperand c.user c.value new)).graph f).value? v = (s₁.module.graph f).value? v := by
      obtain ⟨func, known⟩ := Option.isSome_iff_exists.mp known
      rw [Module.graph_updateGraph known]
      split
      next same =>
        rw [same, Graph.value?, congrArg Graph.values (Graph.replaceOperand_eq _ c.user c.value new).1]
        rfl
      next => rfl
    refine ⟨rewires.code.replaceOperand grows ⟨c, member, rfl, rfl, rfl⟩ known fun ty had => had.ty_eq ▸ here,
      fun f ptr ty v inside => ?_, fun f address ty v inside => ?_⟩
    · rw [Graph.HasTy, values]
      exact rewires₁.bases f ptr ty v inside
    · rw [Graph.HasTy, values]
      exact rewires₁.memo f address ty v inside

theorem redirectAll_rewires {cursor : EntryCursor} {all : List Cell} (inside : ∀ c ∈ all, c ∈ cells)
    (h : redirectAll t all ⟨m, cursor, [], [], []⟩ = .ok s) : m.Rewires cells s.module :=
  (Recovering.foldlM_eq_ok (motive := fun s => Rewires m cells s) (.start m cells cursor)
    (fun c _ _ member before => redirect_rewires before (inside c member)) h).code

end GlobalRedirection

namespace Module

variable {m n : Module} {t u : EntityTable} {cells : List Cell} {cursor last : EntryCursor} {built : BuiltGlobals}

/-- How far behind its base the address lies that an instruction makes, if it makes one of a part by a constant path. -/
def gepOffset? (m : Module) (f : FuncId) (i : InstId) : Option Int :=
  match (m.graph f).inst? i with
  | some (.gep base path) => do
    let pointee ← ((m.graph f).ty base).pointee?
    m.layout.gepOffset? pointee (← (m.graph f).indices? path)
  | _ => none

/-- What a path leads to where it is the same, from a base of another type. -/
theorem gepOffset?_of_hasTy {f : FuncId} {i : InstId} {base : ValueId} {path : List ValueId} {pointee : Ty} {ns : List Int}
    (gep : (m.graph f).inst? i = some (.gep base path)) (typed : (m.graph f).HasTy base (.ptr pointee))
    (indices : (m.graph f).indices? path = some ns) : m.gepOffset? f i = m.layout.gepOffset? pointee ns := by
  unfold gepOffset?
  rw [gep]
  dsimp only
  rw [typed.ty_eq, indices]
  rfl

theorem gepOffset?_eq_some {f : FuncId} {i : InstId} {base : ValueId} {path : List ValueId} {k : Int}
    (gep : (m.graph f).inst? i = some (.gep base path)) (offset : m.gepOffset? f i = some k) :
    ∃ pointee ns, (m.graph f).HasTy base (.ptr pointee) ∧ (m.graph f).indices? path = some ns ∧
      m.layout.gepOffset? pointee ns = some k := by
  unfold gepOffset? at offset
  rw [gep] at offset
  dsimp only at offset
  obtain ⟨pointee, points, offset⟩ := Option.bind_eq_some_iff.mp offset
  obtain ⟨ns, indices, offset⟩ := Option.bind_eq_some_iff.mp offset
  refine ⟨pointee, ns, ?_, indices, offset⟩
  unfold Graph.ty at points
  cases known : (m.graph f).value? base with
  | none => rw [known] at points; cases points
  | some val =>
    rw [known] at points
    refine ⟨val, known, ?_⟩
    cases ty : val.ty with
    | ptr other =>
      have same : other = pointee := by simpa [ty, Ty.pointee?] using points
      rw [same]
    | _ => simp [ty, Ty.pointee?] at points

/-- What becomes of the addresses of parts: their paths stay, and with them how far they lie behind their base, unless
the base is the address of a variable that a run outgrows. Then the same indices lead into the struct of that run. -/
theorem buildGlobals_moves_geps (h : (m.buildGlobals t cells cursor).warnings.1 = .ok (n, u, last, built)) :
    ∃ runs, m.runs? t cells = .ok runs ∧ ∀ f i base path k, (m.graph f).inst? i = some (.gep base path) →
      m.gepOffset? f i = some k → (∀ v ∈ path, ¬Names cells f i v) →
      ∃ other, (n.graph f).inst? i = some (.gep other path) ∧ (other = base ∨ Names cells f i base) ∧
        ((∀ id ty, (m.graph f).value? base = some (.global id ty) →
          (m.global? id).isSome ∧ ∀ r ∈ runs, ¬r.Outgrows m t id) → n.gepOffset? f i = some k) ∧
        ∀ id ty, (m.graph f).value? base = some (.global id ty) → (∃ r ∈ runs, r.Outgrows m t id) →
          ∃ w ns, n.global? id = some w ∧ (∃ r ∈ runs, r.Reshapes m t id w.ty) ∧
            (m.graph f).indices? path = some ns ∧ n.gepOffset? f i = m.layout.gepOffset? w.ty ns := by
  obtain ⟨stop, run⟩ := Recovering.warnings_ok h
  obtain ⟨runs, s, formed, rfl, redirected, rfl, rfl⟩ := buildGlobals_ok run
  have growth := Run.declareAll_outgrowth runs m t
  have rewires : (Run.declareAll runs m t).1.Rewires cells s.module :=
    GlobalRedirection.redirectAll_rewires (fun c member => List.mem_mergeSort.mp member) redirected
  have layout : s.module.layout = m.layout := (congrArg Target.dataLayout rewires.target).trans growth.layout
  refine ⟨runs, formed, fun f i base path k gep offset fixed => ?_⟩
  obtain ⟨pointee, ns, ⟨val, known, points⟩, indices, offset⟩ := gepOffset?_eq_some gep offset
  obtain ⟨σ, after, moved, typed⟩ := (rewires.graph f).inst i (.gep base path) (by rw [Graph.inst?, growth.insts]; exact gep)
  have path_eq : path.map σ = path := by
    rw [List.map_congr_left fun v member => (moved v).resolve_right (fixed v member), List.map_id']
  rw [show (Inst.gep base path).mapOperands σ = .gep (σ base) (path.map σ) from rfl, path_eq] at after
  have numbers : (s.module.graph f).indices? path = some ns := Graph.indices?_of_imm? (fun v j found => by
    rw [Graph.imm?_eq_some] at found ⊢
    exact (rewires.graph f).value v _ (growth.value f v _ found fun _ _ same => Value.noConfusion same)) indices
  -- Redirection keeps the type of what it replaces: the offset depends on the pointee and
  -- the constant indices alone, both as the declarations left them.
  have reaches {pointee : Ty} {val : Value} (known : ((Run.declareAll runs m t).1.graph f).value? base = some val)
      (points : val.ty = .ptr pointee) : s.module.gepOffset? f i = m.layout.gepOffset? pointee ns := by
    have after := gepOffset?_of_hasTy after (points ▸ typed base val known) numbers
    rwa [layout] at after
  refine ⟨σ base, after, moved base, fun others => ?same, fun id ty address outgrown => ?moves⟩
  case same =>
    rw [← offset]
    refine reaches ?_ points
    cases val with
    | global id ty =>
      obtain ⟨there, fits⟩ := others id ty known
      obtain ⟨v, there⟩ := Option.isSome_iff_exists.mp there
      exact (growth.kept id v there fits).2 f base ty known
    | _ => exact growth.value f base _ known fun _ _ same => Value.noConfusion same
  case moves =>
    obtain ⟨w, there, shape, addresses⟩ := growth.outgrown id outgrown
    refine ⟨w, ns, ?_, shape, indices, reaches (addresses f base ty address) rfl⟩
    rw [global?, rewires.globals]
    exact there

/-- Only the base of such an address can hold a constant address, and then it is no pointer: no cell that is collected
names an operand. -/
theorem collect_names_no_gep {image : Image} {start : String} {collected : Cells}
    (h : m.collect image start = .ok (n, collected)) {f : FuncId} {i : InstId} {k : Int} (offset : n.gepOffset? f i = some k)
    (v : ValueId) : ¬Names collected.globals f i v := by
  rintro ⟨c, member, rfl, rfl, rfl⟩
  obtain ⟨traces, j, constant, -⟩ := (collect_globals h c member).traces
  obtain ⟨base, path, gep⟩ : ∃ base path, (n.graph c.func).inst? c.user = some (.gep base path) := by
    unfold gepOffset? at offset
    split at offset
    next base path gep => exact ⟨base, path, gep⟩
    next => cases offset
  obtain ⟨pointee, -, typed, -, -⟩ := gepOffset?_eq_some gep offset
  have operand : c.value ∈ [base] := traces.addressOperand gep nofun
  rw [List.mem_singleton.mp operand] at constant
  exact nomatch typed.ty_eq.symm.trans (Graph.ty_of_imm? constant)

/-- The third element of each of two tables. At the start of the first one more is read than it has. -/
def indexedTables : Module :=
  let table := Ty.array (.int .i16) 4
  let f := (Func.declare ⟨"read", .exported, [], .unit, none, false, false⟩ []).addBlock
  let f := { f with graph := (f.graph.addGlobal ⟨0⟩ (.ptr table)).1 }
  let f := { f with graph := (f.graph.addGlobal ⟨1⟩ (.ptr table)).1 }
  let f := (f.addImm (.ofInt .i64 0)).1
  let f := (f.addImm (.ofInt .i64 2)).1
  let f := (f.insert (.gep ⟨0⟩ [⟨2⟩, ⟨3⟩]) (.ptr (.int .i16)) (.bottom ⟨0⟩)).1
  let f := (f.insert (.gep ⟨1⟩ [⟨2⟩, ⟨3⟩]) (.ptr (.int .i16)) (.bottom ⟨0⟩)).1
  let f := (f.addImm (.ofInt .i64 4096)).1
  let f := (f.insert (.cast .intToPtr ⟨6⟩ (.ptr (.int .i32))) (.ptr (.int .i32)) (.bottom ⟨0⟩)).1
  let f := (f.addImm (.ofInt .i64 4100)).1
  let f := (f.insert (.cast .intToPtr ⟨8⟩ (.ptr (.int .i32))) (.ptr (.int .i32)) (.bottom ⟨0⟩)).1
  let f := (f.addImm (.ofInt .i64 4104)).1
  let f := (f.insert (.cast .intToPtr ⟨10⟩ (.ptr (.int .i32))) (.ptr (.int .i32)) (.bottom ⟨0⟩)).1
  let f := (f.insertInst (.leave none) (.bottom ⟨0⟩)).1
  { empty ⟨.x86_64, .unknown, .linux⟩ with
    globals := #[⟨"data", table, .internal, false⟩, ⟨"other", table, .internal, false⟩]
    funcs := #[f] }

def indexedTableCells : List Cell :=
  [⟨⟨0⟩, 4096, .int .i32, 4, .plain, ⟨2⟩, ⟨6⟩⟩, ⟨⟨0⟩, 4100, .int .i32, 4, .plain, ⟨3⟩, ⟨8⟩⟩,
    ⟨⟨0⟩, 4104, .int .i32, 4, .plain, ⟨4⟩, ⟨10⟩⟩]

def indexedTableEntities : EntityTable :=
  (EntityTable.empty.putVar 4096 ⟨0⟩ 8).putVar 8192 ⟨1⟩ 8

theorem indexedTables_moves : ∃ n u last built,
    (indexedTables.buildGlobals indexedTableEntities indexedTableCells .start).warnings.1 = .ok (n, u, last, built) ∧
      indexedTables.gepOffset? ⟨0⟩ ⟨1⟩ = some 4 ∧ n.gepOffset? ⟨0⟩ ⟨1⟩ = some 4 ∧
      indexedTables.gepOffset? ⟨0⟩ ⟨0⟩ = some 4 ∧ n.gepOffset? ⟨0⟩ ⟨0⟩ = some 8 := by
  have ran : ((indexedTables.buildGlobals indexedTableEntities indexedTableCells .start).warnings.1.toOption.map
      fun _ => ()) = some () := by cbv
  have formed : ((indexedTables.runs? indexedTableEntities indexedTableCells).toOption.map fun runs =>
      runs.map fun r => (r.fields.start, r.size, r.fields.types, r.isPacked indexedTables.layout)) =
        some [(4096, 12, [.int .i32, .int .i32, .int .i32], false)] := by cbv
  obtain ⟨⟨n, u, last, built⟩, same, -⟩ := Option.map_eq_some_iff.mp ran
  have h := Recovering.ok_of_toOption same
  obtain ⟨runs, made, moves⟩ := buildGlobals_moves_geps h
  rw [made] at formed
  obtain ⟨r, rfl, shape⟩ := List.map_eq_singleton_iff.mp (Option.some.inj formed)
  simp only [Prod.mk.injEq] at shape
  obtain ⟨start, size, types, natural⟩ := shape
  have place (a : Nat) : indexedTableEntities.get? a =
      if a = 8192 then some (.var ⟨1⟩) else if a = 4096 then some (.var ⟨0⟩) else none := by
    rw [indexedTableEntities, EntityTable.get?_putVar, EntityTable.get?_putVar]
    rfl
  have unnamed (i : InstId) (few : i.index < 2) (v : ValueId) : ¬Names indexedTableCells ⟨0⟩ i v := by
    rintro ⟨c, member, -, rfl, -⟩
    simp only [indexedTableCells, List.mem_cons, List.not_mem_nil, or_false] at member
    rcases member with rfl | rfl | rfl <;> exact absurd few (by decide)
  have before : indexedTables.gepOffset? ⟨0⟩ ⟨0⟩ = some 4 ∧ indexedTables.gepOffset? ⟨0⟩ ⟨1⟩ = some 4 := by decide +kernel
  obtain ⟨-, -, -, -, moved⟩ := moves ⟨0⟩ ⟨0⟩ ⟨0⟩ [⟨2⟩, ⟨3⟩] 4 (by decide +kernel) before.1
    fun v _ => unnamed ⟨0⟩ (by decide) v
  obtain ⟨-, -, -, kept, -⟩ := moves ⟨0⟩ ⟨1⟩ ⟨1⟩ [⟨2⟩, ⟨3⟩] 4 (by decide +kernel) before.2
    fun v _ => unnamed ⟨1⟩ (by decide) v
  refine ⟨n, u, last, built, h, before.2, kept fun id ty known => ?_, before.1, ?_⟩
  · have address : (indexedTables.graph ⟨0⟩).value? ⟨1⟩ = some (.global ⟨1⟩ (.ptr (.array (.int .i16) 4))) := by
      decide +kernel
    cases address.symm.trans known
    refine ⟨rfl, List.forall_mem_singleton.mpr fun outgrows => ?_⟩
    have there := outgrows.1
    rw [start, place] at there
    cases there
  · have outgrows : r.Outgrows indexedTables indexedTableEntities ⟨0⟩ :=
      ⟨by rw [start, place]; rfl, _, rfl, by rw [size]; decide +kernel⟩
    obtain ⟨w, ns, -, ⟨q, member, -, name, shape⟩, indices, offset⟩ := moved ⟨0⟩ (.ptr (.array (.int .i16) 4))
      (by decide +kernel) ⟨r, by simp, outgrows⟩
    cases List.mem_singleton.mp member
    have numbers : (indexedTables.graph ⟨0⟩).indices? [⟨2⟩, ⟨3⟩] = some [0, 2] := by decide +kernel
    cases numbers.symm.trans indices
    rw [offset, shape, types, natural]
    rfl

/-- What was the third element of the table is the third field of the struct. -/
theorem indexedTables_breaks_offset : ¬∀ (m n : Module) t u cells cursor last built,
    (m.buildGlobals t cells cursor).warnings.1 = .ok (n, u, last, built) →
      ∀ f i k, m.gepOffset? f i = some k → n.gepOffset? f i = some k := by
  intro claim
  have ran : ((indexedTables.buildGlobals indexedTableEntities indexedTableCells .start).warnings.1.toOption.map
      fun r => r.1.gepOffset? ⟨0⟩ ⟨0⟩) = some (some 8) := by cbv
  obtain ⟨⟨n, u, last, built⟩, same, moved⟩ := Option.map_eq_some_iff.mp ran
  have kept := claim _ _ _ _ _ _ _ _ (Recovering.ok_of_toOption same) ⟨0⟩ ⟨0⟩ 4 (by decide +kernel)
  cases kept.symm.trans moved
end Module

end VarRecovery
