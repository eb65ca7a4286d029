import VarRecovery.Proofs.Region.Apart
import VarRecovery.Proofs.Region.Globals

/-!
Where cells are redirected to. Each of them lies in the variable that it comes to address, and no byte lies in
two variables.
-/

set_option autoImplicit false

namespace VarRecovery

namespace Graph

/-- New instructions made the address of an entity an integer, or that of a place behind its start. -/
def Points (old : Nat) (g : Graph) (v : ValueId) (e : Entity) : Prop :=
  ∃ ptr base width, g.entity? ptr = some e ∧ g.Makes old base (.cast .ptrToInt ptr (.int width)) ∧
    (v = base ∨ ∃ c, (g.imm? c).isSome ∧ g.Makes old v (.binary .add base c))

variable {old : Nat} {t : EntityTable} {g : Graph} {width : IntWidth} {address : Nat} {v : ValueId}

theorem Locates.points (locates : Locates old t g width address v) :
    ∃ e offset, t.Holds e offset address ∧ Points old g v e := by
  obtain ⟨e, ptr, base, offset, holds, pointer, cast, place⟩ := locates
  refine ⟨e, offset, holds, ptr, base, width, pointer, cast, place.imp And.right ?_⟩
  rintro ⟨c, constant, sum⟩
  exact ⟨c, Option.isSome_iff_exists.mpr ⟨_, constant⟩, sum⟩

end Graph

namespace EntityTable

variable {t : EntityTable} {id : GlobalId} {offset address : Nat}

/-- Where a variable lies that holds an address. -/
theorem Holds.places (holds : t.Holds (.var id) offset address) :
    ∃ a k, t.entities.find? a = some (.var id, k) ∧ a ≤ address ∧ (a = address ∨ address < a + k) := by
  obtain ⟨a, k, found, rfl, here | ⟨inside, -⟩⟩ := holds
  · exact ⟨a, k, found, by omega, by omega⟩
  · exact ⟨a, k, found, by omega, by omega⟩

end EntityTable

namespace Module

variable {m n : Module} {t u : EntityTable} {cells : List Cell} {cursor last : EntryCursor} {built : BuiltGlobals}

/-- The runs that get variables. -/
def runs? (m : Module) (t : EntityTable) (cells : List Cell) : Except RecoveryError (List Run) :=
  Run.ofCells m.layout (Cell.sort (.ofTable m t cells) m.layout cells)

/-- The operand `value` of `user` became the address of an entity. If that is a variable, it holds all cells that the
operand had. -/
def RedirectsInto (m n : Module) (u : EntityTable) (cells : List Cell) (f : FuncId) (user : InstId)
    (value new : ValueId) : Prop :=
  ∃ e, Graph.Points (m.counts f) (n.graph f) new e ∧ ∀ id, e = .var id → ∃ a k,
    u.entities.find? a = some (.var id, k) ∧ ∀ c ∈ cells, c.func = f → c.user = user → c.value = value →
      a ≤ c.address ∧ c.address + c.size ≤ a + k

theorem buildGlobals_apart (exist : t.Exists m) (once : t.Once) (apart : t.Apart) (bounded : t.Bounded)
    (recorded : ∀ a, t.RecordedAt m a) (solid : ∀ a k, t.Places a k → 0 < k)
    (sits : ∀ runs, m.runs? t cells = .ok runs → ∀ r ∈ runs, r.Sits t cells)
    (h : (m.buildGlobals t cells cursor).warnings.1 = .ok (n, u, last, built)) :
    u.Apart ∧
    (∀ c ∈ cells, ∀ a k, u.Places a k → a ≤ c.address → a = c.address ∨ c.address < a + k →
      c.address + c.size ≤ a + k) ∧
    ((∀ c ∈ cells, c.IsImmediate m) → ∀ f,
      Graph.Redirects (m.RedirectsInto n u cells f) (m.graph f) (n.graph f)) := by
  obtain ⟨stop, run⟩ := Recovering.warnings_ok h
  obtain ⟨runs, s, formed, rfl, redirected, rfl, -⟩ := buildGlobals_ok run
  have sorted := Cell.pairwise_sort (.ofTable m t cells) m.layout cells
  obtain ⟨ordered, inRuns⟩ := Run.ofCells_spec sorted formed
  obtain ⟨same, parted, homes, -⟩ := Run.declareAll_parted runs ⟨exist, once, apart, bounded⟩ ordered
    fun r member => ⟨sits runs formed r member, recorded _, fun a k places _ _ => solid a k places⟩
  generalize Run.declareAll runs m t = result at redirected parted homes same ⊢
  obtain ⟨m', u, created, warnings⟩ := result
  have whole (c : Cell) (member : c ∈ cells) (a k : Nat) (places : u.Places a k) (below : a ≤ c.address)
      (holds : a = c.address ∨ c.address < a + k) : c.address + c.size ≤ a + k := by
    obtain ⟨r, inside, spans⟩ := inRuns c (List.mem_mergeSort.mpr member)
    exact homes r inside c member spans a k places below holds
  refine ⟨parted.apart, whole, fun immediates f => ?_⟩
  have sound := GlobalRedirection.redirectAll_sound (.start m' u _ cursor) parted.exist
    (fun c member => (immediates c (List.mem_mergeSort.mp member)).congr same) redirected
  refine ((sound.redirected.redirects f).congr (same.insts f)).mono ?_
  rintro user value new ⟨c, member, rfl, rfl, rfl, i, found, locates⟩
  rw [same.imm] at found
  rw [Module.counts, same.insts] at locates
  obtain ⟨e, offset, holds, points⟩ := locates.points
  refine ⟨e, points, fun id var => ?_⟩
  subst var
  obtain ⟨a, k, placed, below, reaches⟩ := holds.places
  refine ⟨a, k, placed, fun d other func user value => ?_⟩
  -- The cells of one operand have one address, that of its constant.
  have address : d.address = c.address := by
    obtain ⟨j, first, one⟩ := (immediates d other).constant
    obtain ⟨l, second, two⟩ := (immediates c (List.mem_mergeSort.mp member)).constant
    rw [func, value, second] at first
    rw [← one, ← two, Option.some.inj first]
  exact ⟨by omega, whole d other a k ⟨id, placed⟩ (by omega) (by omega)⟩

/-- The variable of the first read grows by the bytes of the second, which comes to address it. -/
theorem constantReads_apart : ∃ n u last built,
    (constantReads.buildGlobals constantReadTable constantReadCells .start).warnings.1 =
      .ok (n, u, last, built) ∧ u.Apart ∧
    ∃ new, new ≠ ⟨3⟩ ∧ (n.graph ⟨0⟩).operands ⟨2⟩ = [new] ∧
      constantReads.RedirectsInto n u constantReadCells ⟨0⟩ ⟨2⟩ ⟨3⟩ new := by
  have find (a : Nat) : constantReadTable.entities.find? a = if a = 4096 then some (.var ⟨0⟩, 8) else none :=
    AddressMap.find?_insert .empty 4096 (Entity.var ⟨0⟩, 8) a
  have get (a : Nat) : constantReadTable.get? a = if a = 4096 then some (.var ⟨0⟩) else none :=
    EntityTable.get?_putVar .empty 4096 ⟨0⟩ 8 a
  have places {a k : Nat} (there : constantReadTable.Places a k) : a = 4096 ∧ k = 8 := by
    obtain ⟨id, found⟩ := there
    rw [find] at found
    split at found <;> cases found
    exact ⟨‹_›, rfl⟩
  have exist : constantReadTable.Exists constantReads := by
    intro a e found
    rw [get] at found
    split at found <;> cases found
    exact ⟨_, rfl⟩
  have once : constantReadTable.Once := by
    intro a b id first second
    rw [get] at first second
    split at first <;> split at second <;> simp_all
  have recorded (a : Nat) : constantReadTable.RecordedAt constantReads a := by
    intro id k v found known
    rw [find] at found
    split at found <;> cases found
    cases known
    decide
  have formed : (constantReads.runs? constantReadTable constantReadCells).toOption.map
      (·.map fun r => r.fields.start) = some [4096] := by cbv
  have sits (runs : List Run) (h : constantReads.runs? constantReadTable constantReadCells = .ok runs) (r : Run)
      (member : r ∈ runs) : r.Sits constantReadTable constantReadCells := by
    rw [h] at formed
    refine .alone fun a k x there _ _ _ _ => ?_
    have start : r.fields.start ∈ runs.map fun r => r.fields.start := List.mem_map_of_mem member
    rw [show runs.map (fun r => r.fields.start) = [4096] from Option.some.inj formed, List.mem_singleton] at start
    rw [start, (places there).1]
  have immediates : ∀ c ∈ constantReadCells, c.IsImmediate constantReads := by
    intro c member
    simp only [constantReadCells, List.mem_cons, List.not_mem_nil, or_false] at member
    rcases member with rfl | rfl
    · exact ⟨by decide +kernel, .ofInt .i64 4096, by decide +kernel, by decide⟩
    · exact ⟨by decide +kernel, .ofInt .i32 4104, by decide +kernel, by decide⟩
  have run : ((constantReads.buildGlobals constantReadTable constantReadCells .start).warnings.1.toOption.map
      fun r => (r.1.graph ⟨0⟩).operands ⟨2⟩) = some [⟨10⟩] := by cbv
  obtain ⟨⟨n, u, last, built⟩, same, operands⟩ := Option.map_eq_some_iff.mp run
  have h := Recovering.ok_of_toOption same
  obtain ⟨apart, -, redirects⟩ := buildGlobals_apart exist once
    (fun a k b l x first second _ _ _ _ => (places first).1.trans (places second).1.symm)
    (fun a k there => (places there).2 ▸ Nat.le_refl 8) recorded (fun a k there => (places there).2 ▸ by decide)
    sits h
  obtain ⟨σ, after, kept⟩ := redirects immediates ⟨0⟩ ⟨2⟩ (.cast .intToPtr ⟨3⟩ (.ptr (.int .i32)))
    (by decide +kernel)
  have moved : σ ⟨3⟩ = ⟨10⟩ := by simpa [Graph.operands, after, Inst.mapOperands, Inst.operands] using operands
  rcases kept ⟨3⟩ with still | into
  · cases still.symm.trans moved
  · exact ⟨n, u, last, built, h, apart, ⟨10⟩, by decide, operands, moved ▸ into⟩

/-- A read of bytes of which a variable has the first four. -/
def straddlingRead : Module :=
  let int := Ty.int .i64
  let f := (Func.declare ⟨"read", .exported, [], .unit, none, false, false⟩ []).addBlock
  let (f, address) := f.addImm (.ofInt .i64 4100)
  let (f, pointer) := f.insert (.cast .intToPtr address (.ptr int)) (.ptr int) (.bottom ⟨0⟩)
  let (f, _) := f.insert (.load pointer int) int (.bottom ⟨0⟩)
  let (f, _) := f.insertInst (.leave none) (.bottom ⟨0⟩)
  { empty ⟨.x86_64, .unknown, .linux⟩ with
    globals := #[⟨"data", int, .internal, false⟩]
    funcs := #[f] }

def straddlingReadCells : List Cell := [⟨⟨0⟩, 4100, .int .i64, 8, .plain, ⟨0⟩, ⟨0⟩⟩]

/-- The run gets a variable of its own, and the bytes that the first one has of it are in both. -/
theorem straddlingRead_overlaps : constantReadTable.Apart ∧ ∃ n u last built,
    (straddlingRead.buildGlobals constantReadTable straddlingReadCells .start).warnings.1 =
      .ok (n, u, last, built) ∧ ¬u.Apart := by
  refine ⟨fun a k b l _ first second _ _ _ _ => ?_, ?_⟩
  · have start {a k : Nat} (there : constantReadTable.Places a k) : a = 4096 := by
      obtain ⟨id, found⟩ := there
      rw [constantReadTable, EntityTable.putVar, AddressMap.find?_insert] at found
      split at found
      next here => exact here
      next => cases found
    exact (start first).trans (start second).symm
  · have run : ((straddlingRead.buildGlobals constantReadTable straddlingReadCells .start).warnings.1.toOption.map
        fun r => (r.2.1.entities.find? 4096, r.2.1.entities.find? 4100)) =
          some (some (.var ⟨0⟩, 8), some (.var ⟨1⟩, 8)) := by cbv
    obtain ⟨⟨n, u, last, built⟩, same, found⟩ := Option.map_eq_some_iff.mp run
    obtain ⟨first, second⟩ := Prod.ext_iff.mp found
    refine ⟨n, u, last, built, Recovering.ok_of_toOption same, fun apart => ?_⟩
    have shared := apart 4096 8 4100 8 4100 ⟨_, first⟩ ⟨_, second⟩
    exact absurd (shared (by decide) (by decide) (by decide) (by decide)) (by decide)

end Module

end VarRecovery
