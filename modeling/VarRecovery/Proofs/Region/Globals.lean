import Mathlib
import VarRecovery.Proofs.Region.Resolution

/-!
Redirected constants keep their numbers. The integer that takes the place of a cell's constant is the address
of the cell, if each entity lies where the final table places it.
-/

set_option autoImplicit false

namespace VarRecovery

namespace Graph

theorem addGlobal_eq (g : Graph) (id : GlobalId) (ty : Ty) : ∃ p : Value → Bool,
    g.addGlobal id ty = g.findOrAdd p (.global id ty) ∧ ∀ val, p val = true ↔ ∃ old, val = .global id old :=
  ⟨_, rfl, fun val => by cases val <;> simp⟩

theorem addFunc_eq (g : Graph) (id : FuncId) (ty : Ty) : ∃ p : Value → Bool,
    g.addFunc id ty = g.findOrAdd p (.func id ty) ∧ ∀ val, p val = true ↔ ∃ old, val = .func id old :=
  ⟨_, rfl, fun val => by cases val <;> simp⟩

theorem addGlobal_spec (g : Graph) (id : GlobalId) (ty : Ty) :
    g.Keeps 0 (g.addGlobal id ty).1 ∧ (g.addGlobal id ty).1.entity? (g.addGlobal id ty).2 = some (.var id) := by
  obtain ⟨p, same, holds⟩ := g.addGlobal_eq id ty
  obtain ⟨known, found, here⟩ := g.findOrAdd_spec p _ ((holds _).mpr ⟨ty, rfl⟩)
  obtain ⟨old, rfl⟩ := (holds known).mp here
  rw [same]
  exact ⟨g.keeps_findOrAdd p _, Option.bind_eq_some_iff.mpr ⟨_, found, rfl⟩⟩

theorem addFunc_spec (g : Graph) (id : FuncId) (ty : Ty) :
    g.Keeps 0 (g.addFunc id ty).1 ∧ (g.addFunc id ty).1.entity? (g.addFunc id ty).2 = some (.func id) := by
  obtain ⟨p, same, holds⟩ := g.addFunc_eq id ty
  obtain ⟨known, found, here⟩ := g.findOrAdd_spec p _ ((holds _).mpr ⟨ty, rfl⟩)
  obtain ⟨old, rfl⟩ := (holds known).mp here
  rw [same]
  exact ⟨g.keeps_findOrAdd p _, Option.bind_eq_some_iff.mpr ⟨_, found, rfl⟩⟩

end Graph

namespace Module

variable {m : Module} {f : FuncId}

theorem addGlobalValue_spec {id : GlobalId} (func : (m.func? f).isSome) (has : m.Has (.var id)) :
    m.Grows (m.addGlobalValue f id).1 ∧
      ((m.addGlobalValue f id).1.graph f).entity? (m.addGlobalValue f id).2 = some (.var id) := by
  obtain ⟨body, found⟩ := Option.isSome_iff_exists.mp func
  obtain ⟨var, known⟩ := has
  simp only [addGlobalValue, found, known]
  obtain ⟨keeps, pointer⟩ := body.graph.addGlobal_spec id (.ptr var.ty)
  refine ⟨Keeps.updateFunc found keeps, ?_⟩
  rw [graph_updateFunc found, if_pos rfl]
  exact pointer

theorem addFuncValue_spec {id : FuncId} (func : (m.func? f).isSome) (has : m.Has (.func id)) :
    m.Grows (m.addFuncValue f id).1 ∧
      ((m.addFuncValue f id).1.graph f).entity? (m.addFuncValue f id).2 = some (.func id) := by
  obtain ⟨body, found⟩ := Option.isSome_iff_exists.mp func
  obtain ⟨target, known⟩ := has
  simp only [addFuncValue, found, known]
  obtain ⟨keeps, pointer⟩ := body.graph.addFunc_spec id target.signature.ptrTy
  refine ⟨Keeps.updateFunc found keeps, ?_⟩
  rw [graph_updateFunc found, if_pos rfl]
  exact pointer

end Module

namespace Cell

/-- The value of a cell is a constant that holds its address, for an instruction that exists. -/
structure IsImmediate (m : Module) (c : Cell) : Prop where
  user : c.user.index < (m.graph c.func).insts.size
  constant : ∃ i, (m.graph c.func).imm? c.value = some i ∧ i.toAddress = c.address

/-- The value of a cell is a constant of at most 64 bits that holds its address, for an instruction that
exists. -/
structure IsConstant (m : Module) (c : Cell) : Prop where
  user : c.user.index < (m.graph c.func).insts.size
  constant : ∃ i, (m.graph c.func).imm? c.value = some i ∧ i.width.bits ≤ 64 ∧ i.toAddress = c.address

theorem IsImmediate.congr {m n : Module} {c : Cell} (immediate : c.IsImmediate m) (same : m.SameCode n) :
    c.IsImmediate n := by
  refine ⟨?_, ?_⟩
  · rw [same.insts]
    exact immediate.user
  · rw [same.imm]
    exact immediate.constant

theorem IsConstant.isImmediate {m : Module} {c : Cell} (constant : c.IsConstant m) : c.IsImmediate m := by
  obtain ⟨user, i, found, -, address⟩ := constant
  exact ⟨user, i, found, address⟩

theorem IsConstant.congr {m n : Module} {c : Cell} (constant : c.IsConstant m) (same : m.SameCode n) :
    c.IsConstant n := by
  refine ⟨?_, ?_⟩
  · rw [same.insts]
    exact constant.user
  · rw [same.imm]
    exact constant.constant

end Cell

namespace GlobalRedirection

/-- A value is the address of a cell, and may take the place of its constant. -/
def Stands (m : Module) (t : EntityTable) (cells : List Cell) (f : FuncId) (g : Graph) (user : InstId)
    (value new : ValueId) : Prop :=
  ∃ c ∈ cells, c.func = f ∧ c.user = user ∧ c.value = value ∧ ∃ i, (m.graph f).imm? value = some i ∧
    Graph.Locates (m.counts f) t g i.width c.address new

theorem lasting_stands (m : Module) (t : EntityTable) (cells : List Cell) : m.Lasting (Stands m t cells) where
  keeps := by
    rintro f g h _ _ new ⟨c, member, func, rfl, rfl, i, found, locates⟩ keeps
    exact ⟨c, member, func, rfl, rfl, i, found, locates.keeps keeps⟩
  imm := by
    rintro f g _ _ new ⟨c, -, -, -, -, i, -, locates⟩
    exact locates.imm?

/-- What holds of a redirection that began with `m`: remembered casts and addresses are what they were
remembered as, and operands have changed to the addresses of their cells. -/
structure Sound (m : Module) (t : EntityTable) (cells : List Cell) (s : GlobalRedirection) : Prop where
  redirected : m.Redirected (Stands m t cells) s.module
  bases : ∀ f ptr ty v, ((f, ptr, ty), v) ∈ s.bases →
    (s.module.graph f).Makes (m.counts f) v (.cast .ptrToInt ptr ty)
  memo : ∀ f address width v, ((f, address, .int width), v) ∈ s.memo →
    Graph.Locates (m.counts f) t (s.module.graph f) width address v

variable {m : Module} {t : EntityTable} {cells : List Cell} {s s' : GlobalRedirection} {f : FuncId}

theorem Sound.start (m : Module) (t : EntityTable) (cells : List Cell) (cursor : EntryCursor) :
    Sound m t cells ⟨m, cursor, [], [], []⟩ where
  redirected := .refl m
  bases _ _ _ _ member := nomatch member
  memo _ _ _ _ member := nomatch member

/-- Code grows or its operands change, and what is remembered anew is what it is remembered as. -/
theorem Sound.keep (sound : s.Sound m t cells) (keeps : s.module.Keeps m.counts s'.module)
    (redirected : m.Redirected (Stands m t cells) s'.module)
    (bases : ∀ f ptr ty v, ((f, ptr, ty), v) ∈ s'.bases →
      ((f, ptr, ty), v) ∈ s.bases ∨ (s'.module.graph f).Makes (m.counts f) v (.cast .ptrToInt ptr ty))
    (memo : ∀ f address width v, ((f, address, .int width), v) ∈ s'.memo →
      ((f, address, .int width), v) ∈ s.memo ∨ Graph.Locates (m.counts f) t (s'.module.graph f) width address v) :
    s'.Sound m t cells where
  redirected := redirected
  bases f ptr ty v member :=
    (bases f ptr ty v member).elim (fun old => (sound.bases f ptr ty v old).keeps (keeps.graph f)) id
  memo f address width v member :=
    (memo f address width v member).elim (fun old => (sound.memo f address width v old).keeps (keeps.graph f)) id

theorem Sound.grow (sound : s.Sound m t cells) (grows : s.module.Grows s'.module)
    (bases : ∀ f ptr ty v, ((f, ptr, ty), v) ∈ s'.bases →
      ((f, ptr, ty), v) ∈ s.bases ∨ (s'.module.graph f).Makes (m.counts f) v (.cast .ptrToInt ptr ty))
    (memo : ∀ f address width v, ((f, address, .int width), v) ∈ s'.memo →
      ((f, address, .int width), v) ∈ s.memo ∨ Graph.Locates (m.counts f) t (s'.module.graph f) width address v) :
    s'.Sound m t cells :=
  sound.keep (grows.keeps _) (sound.redirected.grow (lasting_stands m t cells) grows) bases memo

theorem entity?_spec (sound : s.Sound m t cells) (exist : t.Exists m) (func : (m.func? f).isSome)
    {address offset : Nat} {ptr : ValueId} (h : s.entity? t f address = some (s', ptr, offset)) :
    s'.Sound m t cells ∧ s.module.Grows s'.module ∧
      ∃ e, t.Holds e offset address ∧ (s'.module.graph f).entity? ptr = some e := by
  have here : (s.module.func? f).isSome := sound.redirected.keeps.func f func
  have exist : t.Exists s.module := exist.keeps sound.redirected.keeps
  rcases entity?_cases h with ⟨id, holds, rfl, rfl⟩ | ⟨id, holds, rfl, rfl⟩
  · obtain ⟨grows, pointer⟩ := Module.addFuncValue_spec here (exist.has holds)
    exact ⟨sound.grow grows (fun _ _ _ _ => .inl) fun _ _ _ _ => .inl, grows, _, holds, pointer⟩
  · obtain ⟨grows, pointer⟩ := Module.addGlobalValue_spec here (exist.has holds)
    exact ⟨sound.grow grows (fun _ _ _ _ => .inl) fun _ _ _ _ => .inl, grows, _, holds, pointer⟩

theorem base_spec (sound : s.Sound m t cells) {ptr v : ValueId} {ty : Ty}
    (h : s.base f ptr ty = .ok (s', v)) :
    s'.Sound m t cells ∧ s.module.Grows s'.module ∧
      (s'.module.graph f).Makes (m.counts f) v (.cast .ptrToInt ptr ty) := by
  rcases base_cases h with ⟨known, rfl⟩ | ⟨module, cursor, written, rfl⟩
  · exact ⟨sound, .refl _ _, sound.bases f ptr ty v known⟩
  · obtain ⟨grows, makes⟩ := EntryCursor.insert_ok written
    have new := makes _ (sound.redirected.keeps.graph f).size_insts
    refine ⟨sound.grow grows (fun j p ty' w member => ?_) fun _ _ _ _ => .inl, grows, new⟩
    rcases List.mem_cons.mp member with same | before
    · cases same
      exact .inr new
    · exact .inl before

theorem displace_spec (sound : s.Sound m t cells) {v : ValueId} {sum : Option ValueId} {offset : Nat}
    {width : IntWidth} (h : s.displace f v offset (.int width) = .ok (s', sum)) :
    s'.Sound m t cells ∧ s.module.Grows s'.module ∧ ∀ int, sum = some int →
      offset = 0 ∧ int = v ∨ ∃ c, (s'.module.graph f).imm? c = some (.ofInt width offset) ∧
        (s'.module.graph f).Makes (m.counts f) int (.binary .add v c) := by
  rcases displace_cases h with ⟨none, rfl, rfl⟩ |
    ⟨i, func, module, cursor, made, constant, found, written, rfl, rfl⟩ | ⟨-, rfl, rfl⟩
  · exact ⟨sound, .refl _ _, fun int same => .inl ⟨none, (Option.some.inj same).symm⟩⟩
  · cases constant
    have added : s.module.Grows (s.module.updateFunc f fun _ => (func.addImm (.ofInt width offset)).1) :=
      .updateFunc found (func.graph.keeps_findOrAdd _ _)
    obtain ⟨grows, makes⟩ := EntryCursor.insert_ok written
    have whole := added.trans grows
    refine ⟨sound.grow whole (fun _ _ _ _ => .inl) fun _ _ _ _ => .inl, whole, fun int same => .inr ?_⟩
    cases same
    refine ⟨_, (grows.graph f).imm? ?_, makes _ ?_⟩
    · rw [Module.graph_updateFunc found, if_pos rfl]
      exact func.graph.imm?_addImm_self _
    · exact Nat.le_trans (sound.redirected.keeps.graph f).size_insts (added.graph f).size_insts
  · exact ⟨sound, .refl _ _, fun int same => nomatch same⟩

theorem resolve_spec (sound : s.Sound m t cells) (exist : t.Exists m) {c : Cell} {int : Option ValueId}
    {width : IntWidth} (func : (m.func? c.func).isSome) (h : s.resolve t c (.int width) = .ok (s', int)) :
    s'.Sound m t cells ∧ s.module.Grows s'.module ∧ ∀ v, int = some v →
      Graph.Locates (m.counts c.func) t (s'.module.graph c.func) width c.address v := by
  rcases resolve_cases h with ⟨v, known, rfl, rfl⟩ | ⟨-, rfl, rfl⟩ |
    ⟨s₁, ptr, offset, s₂, base, s₃, memo, pointers, placed, cast, displaced, rfl, remembered⟩
  · refine ⟨sound, .refl _ _, ?_⟩
    rintro _ ⟨⟩
    exact sound.memo _ _ _ _ known
  · exact ⟨sound, .refl _ _, fun v same => nomatch same⟩
  · obtain ⟨sound₁, grows₁, e, holds, pointer⟩ := entity?_spec sound exist func placed
    obtain ⟨sound₂, grows₂, makes⟩ := base_spec sound₁ cast
    obtain ⟨sound₃, grows₃, reached⟩ := displace_spec sound₂ displaced
    have last (n : Nat) := (grows₃.graph c.func).mono (Nat.zero_le n)
    have located (v : ValueId) (made : int = some v) :
        Graph.Locates (m.counts c.func) t (s₃.module.graph c.func) width c.address v :=
      ⟨e, ptr, base, offset, holds, ((grows₂.trans grows₃).graph c.func).entity? pointer, makes.keeps (last _),
        reached v made⟩
    refine ⟨sound₃.grow (.refl _ _) (fun _ _ _ _ => .inl) fun j a w u member => ?_, (grows₁.trans grows₂).trans grows₃,
      located⟩
    rcases remembered _ u member with before | ⟨same, made⟩
    · exact .inl before
    · cases same
      exact .inr (located u made)

theorem redirect_spec (sound : s.Sound m t cells) (exist : t.Exists m) {c : Cell} (member : c ∈ cells)
    (immediate : c.IsImmediate m) (h : s.redirect t c = .ok s') : s'.Sound m t cells := by
  obtain ⟨imm, found, -⟩ := immediate.constant
  -- Operands change, but no values: the constant still is one, of the type it had.
  have ty : (s.module.graph c.func).ty c.value = .int imm.width :=
    Graph.ty_of_imm? ((sound.redirected.keeps.graph c.func).imm? found)
  obtain ⟨s₁, int, resolved, last⟩ := redirect_cases h
  obtain ⟨sound₁, -, located⟩ := resolve_spec sound exist (Module.isSome_func?_of_imm? found) (ty ▸ resolved)
  rcases last with ⟨-, rfl⟩ | ⟨new, made, rfl⟩
  · exact sound₁
  · obtain ⟨keeps, redirected⟩ := sound₁.redirected.replaceOperand (lasting_stands m t cells) immediate.user
      (Option.isSome_iff_exists.mpr ⟨imm, found⟩) ⟨c, member, rfl, rfl, rfl, imm, found, located new made⟩
    exact sound₁.keep keeps redirected (fun _ _ _ _ => .inl) fun _ _ _ _ => .inl

theorem redirectAll_sound (sound : s.Sound m t cells) (exist : t.Exists m)
    (immediates : ∀ c ∈ cells, c.IsImmediate m) (h : redirectAll t cells s = .ok s') : s'.Sound m t cells :=
  Recovering.foldlM_eq_ok (motive := fun s => s.Sound m t cells) sound
    (fun c _ _ member before => redirect_spec before exist member (immediates c member)) h

theorem redirectAll_spec (sound : s.Sound m t cells) (fits : t.Fits m)
    (constants : ∀ c ∈ cells, c.IsConstant m) (h : redirectAll t cells s = .ok s') : s'.Sound m t cells :=
  redirectAll_sound sound fits.exist (fun c member => (constants c member).isImmediate) h

end GlobalRedirection

theorem Imm.eq_ofInt_toAddress {i : Imm} (small : i.width.bits ≤ 64) : i = .ofInt i.width i.toAddress := by
  have wrapped : i.toAddress = i.bits.toNat := by
    have bound : i.bits.toNat < Word.count :=
      Nat.lt_of_lt_of_le i.bits.isLt (Nat.pow_le_pow_right (by decide) small)
    exact Nat.mod_eq_of_lt bound
  rw [wrapped, Imm.ofInt, BitVec.ofInt_natCast, BitVec.ofNat_toNat, BitVec.setWidth_eq]

namespace Module

variable {m n : Module} {t u : EntityTable} {cells : List Cell} {cursor last : EntryCursor}
  {built : BuiltGlobals}

/-- Every operand that changes denotes the constant that it takes the place of, which is the address of a
cell: entities lie where the final table places them, and each at one address. -/
theorem buildGlobals_keeps_addresses (injective : t.Injective) (exist : t.Exists m)
    (constants : ∀ c ∈ cells, c.IsConstant m)
    (h : (m.buildGlobals t cells cursor).warnings.1 = .ok (n, u, last, built)) :
    u.Injective ∧ ∀ f, Graph.Redirects (fun user value new => ∃ c ∈ cells,
      c.func = f ∧ c.user = user ∧ c.value = value ∧ ∃ i, (m.graph f).imm? value = some i ∧
        i = .ofInt i.width c.address ∧ Graph.Denotes u (n.graph f) new i ∧
        Graph.Locates (m.counts f) u (n.graph f) i.width c.address new)
      (m.graph f) (n.graph f) := by
  obtain ⟨stop, run⟩ := Recovering.warnings_ok h
  unfold buildGlobals at run
  obtain ⟨runs, _, -, run⟩ := Recovering.bind_ok run
  obtain ⟨same, fits⟩ := Run.declareAll_fits runs ⟨injective, exist⟩
  generalize declared : Run.declareAll runs m t = result at run same fits
  obtain ⟨m', t', created, warnings⟩ := result
  obtain ⟨_, _, -, run⟩ := Recovering.bind_ok run
  obtain ⟨s, _, redirected, run⟩ := Recovering.bind_ok run
  obtain ⟨redirected, -⟩ := Recovering.lift_ok redirected
  obtain ⟨done, -⟩ := Recovering.pure_ok run
  cases done
  have inside (c : Cell) (member : c ∈ Cell.sort (.ofTable m t cells) m.layout cells) : c ∈ cells :=
    List.mem_mergeSort.mp member
  -- Variables are created and resized before any operand changes, so the last table holds for all cells.
  have sound := GlobalRedirection.redirectAll_spec (.start m' u _ cursor) fits
    (fun c member => (constants c (inside c member)).congr same) redirected
  refine ⟨fits.injective, fun f => ((sound.redirected.redirects f).congr (same.insts f)).mono ?_⟩
  rintro user value new ⟨c, member, rfl, rfl, rfl, i, found, locates⟩
  rw [same.imm] at found
  rw [Module.counts, same.insts] at locates
  obtain ⟨j, found', small, holds⟩ := (constants c (inside c member)).constant
  obtain rfl : j = i := Option.some.inj (found'.symm.trans found)
  have whole : j = .ofInt j.width c.address := holds ▸ Imm.eq_ofInt_toAddress small
  refine ⟨c, inside c member, rfl, rfl, rfl, j, found, whole, ?_, locates⟩
  rw [whole]
  exact locates.denotes

/-- Two reads at constant addresses: of a variable, and of what lies behind it. -/
def constantReads : Module :=
  let int := Ty.int .i64
  let f := (Func.declare ⟨"read", .exported, [], .unit, none, false, false⟩ []).addBlock
  let (f, first) := f.addImm (.ofInt .i64 4096)
  let (f, address) := f.insert (.cast .intToPtr first (.ptr int)) (.ptr int) (.bottom ⟨0⟩)
  let (f, _) := f.insert (.load address int) int (.bottom ⟨0⟩)
  let (f, second) := f.addImm (.ofInt .i32 4104)
  let (f, address) := f.insert (.cast .intToPtr second (.ptr (.int .i32))) (.ptr (.int .i32)) (.bottom ⟨0⟩)
  let (f, _) := f.insert (.load address (.int .i32)) (.int .i32) (.bottom ⟨0⟩)
  let (f, _) := f.insertInst (.leave none) (.bottom ⟨0⟩)
  { empty ⟨.x86_64, .unknown, .linux⟩ with
    globals := #[⟨"data", int, .internal, false⟩]
    funcs := #[f] }

def constantReadCells : List Cell :=
  [⟨⟨0⟩, 4096, .int .i64, 8, .plain, ⟨0⟩, ⟨0⟩⟩, ⟨⟨0⟩, 4104, .int .i32, 4, .plain, ⟨2⟩, ⟨3⟩⟩]

def constantReadTable : EntityTable := EntityTable.empty.putVar 4096 ⟨0⟩ 8

theorem constantReads_keeps_addresses : ∃ n u last built,
    (constantReads.buildGlobals constantReadTable constantReadCells .start).warnings.1 =
      .ok (n, u, last, built) ∧ u.Injective ∧
    ∃ new, new ≠ ⟨3⟩ ∧ (n.graph ⟨0⟩).operands ⟨2⟩ = [new] ∧
      Graph.Denotes u (n.graph ⟨0⟩) new (.ofInt .i32 4104) := by
  have place (a : Nat) : constantReadTable.get? a = if a = 4096 then some (.var ⟨0⟩) else none :=
    EntityTable.get?_putVar .empty 4096 ⟨0⟩ 8 a
  have injective : constantReadTable.Injective := by
    intro a b e first second
    rw [place] at first second
    split at first <;> split at second <;> simp_all
  have exist : constantReadTable.Exists constantReads := by
    intro a e found
    rw [place] at found
    split at found <;> cases found
    exact ⟨_, rfl⟩
  have constants : ∀ c ∈ constantReadCells, c.IsConstant constantReads := by
    intro c member
    simp only [constantReadCells, List.mem_cons, List.not_mem_nil, or_false] at member
    rcases member with rfl | rfl
    · exact ⟨by decide +kernel, .ofInt .i64 4096, by decide +kernel, by decide, by decide⟩
    · exact ⟨by decide +kernel, .ofInt .i32 4104, by decide +kernel, by decide, by decide⟩
  have run : ((constantReads.buildGlobals constantReadTable constantReadCells .start).warnings.1.toOption.map
      fun r => (r.1.graph ⟨0⟩).operands ⟨2⟩) = some [⟨10⟩] := by cbv
  obtain ⟨⟨n, u, last, built⟩, same, operands⟩ := Option.map_eq_some_iff.mp run
  have h := Recovering.ok_of_toOption same
  obtain ⟨once, redirects⟩ := buildGlobals_keeps_addresses injective exist constants h
  obtain ⟨σ, after, kept⟩ := redirects ⟨0⟩ ⟨2⟩ (.cast .intToPtr ⟨3⟩ (.ptr (.int .i32)))
    (by decide +kernel)
  have moved : σ ⟨3⟩ = ⟨10⟩ := by simpa [Graph.operands, after, Inst.mapOperands, Inst.operands] using operands
  rcases kept ⟨3⟩ with still | ⟨c, -, -, -, -, i, found, -, denotes, -⟩
  · cases still.symm.trans moved
  · obtain rfl : Imm.ofInt .i32 4104 = i := Option.some.inj (by rw [← found]; decide +kernel)
    exact ⟨n, u, last, built, h, once, ⟨10⟩, by decide, operands, moved ▸ denotes⟩

end Module

end VarRecovery
