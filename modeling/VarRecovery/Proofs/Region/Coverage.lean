import VarRecovery.Proofs.Code.Tracking
import VarRecovery.Proofs.Region.OneHome

/-!
Which cells are redirected: those whose address an entity holds, and no others. Each run has a variable that
holds all of it, unless it starts at a function, so only the cells of such runs can be left as they are.
-/

set_option autoImplicit false

namespace VarRecovery

namespace EntityTable

/-- Whether an entity lies at an address, or a variable has bytes there. -/
def Houses (t : EntityTable) (address : Nat) : Prop :=
  ∃ e offset, t.Holds e offset address

variable {t : EntityTable} {a k x : Nat}

theorem Places.houses (places : t.Places a k) (below : a ≤ x) (inside : x < a + k) : t.Houses x := by
  obtain ⟨id, found⟩ := places
  exact ⟨.var id, x - a, a, k, found, by omega, .inr ⟨by omega, id, rfl⟩⟩

/-- What a table houses, looking the address up finds. -/
theorem houses_iff (bounded : t.Bounded) (room : x < maxAddress) :
    t.Houses x ↔ (t.get? x).isSome ∨ (t.covering? x).isSome := by
  constructor
  · rintro ⟨e, offset, start, size, found, rfl, rfl | ⟨inside, id, rfl⟩⟩
    · exact .inl (Option.isSome_iff_exists.mpr ⟨e, get?_eq_some.mpr ⟨size, found⟩⟩)
    · exact .inr (covering?_isSome bounded ⟨id, found⟩ (by omega) (by omega) room)
  · rintro (here | covered)
    · obtain ⟨e, found⟩ := Option.isSome_iff_exists.mp here
      exact ⟨e, 0, holds_of_get? found⟩
    · obtain ⟨⟨start, id, size⟩, found⟩ := Option.isSome_iff_exists.mp covered
      exact ⟨.var id, x - start, holds_of_covering? found⟩

end EntityTable

namespace GlobalRedirection

variable {m : Module} {t : EntityTable} {cells : List Cell} {s s' : GlobalRedirection} {f : FuncId}

theorem entity?_isSome (t : EntityTable) (s : GlobalRedirection) (f : FuncId) (address : Nat) :
    (s.entity? t f address).isSome ↔ (t.get? address).isSome ∨ (t.covering? address).isSome := by
  unfold entity?
  cases t.get? address with
  | some e => cases e <;> simp
  | none => cases t.covering? address <;> simp

theorem displace_isSome (func : (s.module.func? f).isSome) {v : ValueId} {sum : Option ValueId} {offset : Nat}
    {width : IntWidth} (h : s.displace f v offset (.int width) = .ok (s', sum)) : sum.isSome := by
  rcases displace_cases h with ⟨-, -, rfl⟩ | ⟨_, _, _, _, _, -, -, -, -, rfl⟩ | ⟨wordless | missing, -, -⟩
  · rfl
  · rfl
  · cases wordless
  · rw [missing] at func
    cases func

/-- An address resolves exactly if an entity holds it. -/
theorem resolve_isSome (sound : s.Sound m t cells) (exist : t.Exists m) (bounded : t.Bounded) {c : Cell}
    (room : c.address < maxAddress) {int : Option ValueId} {width : IntWidth} (func : (m.func? c.func).isSome)
    (h : s.resolve t c (.int width) = .ok (s', int)) : int.isSome ↔ t.Houses c.address := by
  rcases resolve_cases h with ⟨v, known, -, rfl⟩ | ⟨nowhere, -, rfl⟩ |
    ⟨s₁, ptr, offset, s₂, base, s₃, memo, pointers, placed, cast, displaced, -, -⟩
  · obtain ⟨e, -, -, offset, holds, -⟩ := sound.memo _ _ _ _ known
    exact ⟨fun _ => ⟨e, offset, holds⟩, fun _ => rfl⟩
  · rw [EntityTable.houses_iff bounded room, ← entity?_isSome t s c.func c.address, nowhere]
    rfl
  · obtain ⟨sound₁, -, e, holds, -⟩ := entity?_spec sound exist func placed
    obtain ⟨sound₂, -⟩ := base_spec sound₁ cast
    exact ⟨fun _ => ⟨e, offset, holds⟩, fun _ => displace_isSome (sound₂.redirected.keeps.func _ func) displaced⟩

/-- A step takes a cell's constant from its user if an entity holds the address, and no other constant from
any instruction. -/
theorem redirect_operands (sound : s.Sound m t cells) (exist : t.Exists m) (bounded : t.Bounded) {c : Cell}
    (room : c.address < maxAddress) (immediate : c.IsImmediate m) (h : s.redirect t c = .ok s')
    {user : InstId} {value : ValueId} (old : user.index < m.counts f)
    (constant : ((m.graph f).imm? value).isSome) :
    value ∈ (s'.module.graph f).operands user ↔ value ∈ (s.module.graph f).operands user ∧
      ¬(f = c.func ∧ user = c.user ∧ value = c.value ∧ t.Houses c.address) := by
  obtain ⟨imm, found, -⟩ := immediate.constant
  have known := Module.isSome_func?_of_imm? found
  have ty : (s.module.graph c.func).ty c.value = .int imm.width :=
    Graph.ty_of_imm? ((sound.redirected.keeps.graph c.func).imm? found)
  obtain ⟨s₁, int, resolved, last⟩ := redirect_cases h
  rw [ty] at resolved
  obtain ⟨sound₁, grows, located⟩ := resolve_spec sound exist known resolved
  have housed := resolve_isSome sound exist bounded room known resolved
  have same : (s₁.module.graph f).operands user = (s.module.graph f).operands user :=
    (grows.graph f).operands_eq (Nat.lt_of_lt_of_le old (sound.redirected.keeps.graph f).size_insts)
  rcases last with ⟨rfl, rfl⟩ | ⟨new, rfl, rfl⟩
  · have homeless : ¬t.Houses c.address := fun houses => by simpa using housed.mpr houses
    simp [same, homeless]
  · have houses : t.Houses c.address := housed.mp rfl
    obtain ⟨body, inside⟩ := Option.isSome_iff_exists.mp (sound₁.redirected.keeps.func _ known)
    rw [Module.graph_updateGraph inside]
    split
    next here =>
      subst here
      obtain ⟨i, number⟩ := Option.isSome_iff_exists.mp constant
      have still := (sound₁.redirected.keeps.graph c.func).imm? number
      have differ : value ≠ new := by
        rintro rfl
        cases (located value rfl).imm?.symm.trans still
      simp [Graph.mem_operands_replaceOperand, same, differ, houses]
    next elsewhere => simp [same, elsewhere]

/-- What a run of steps leaves of the constants among the operands: those that are no cell's, and those of cells
that no entity holds. -/
theorem redirectAll_operands (sound : s.Sound m t cells) (exist : t.Exists m) (bounded : t.Bounded)
    {rest : List Cell} (inside : ∀ c ∈ rest, c ∈ cells) (room : ∀ c ∈ rest, c.address < maxAddress)
    (immediates : ∀ c ∈ rest, c.IsImmediate m) (h : redirectAll t rest s = .ok s') {user : InstId}
    {value : ValueId} (old : user.index < m.counts f) (constant : ((m.graph f).imm? value).isSome) :
    value ∈ (s'.module.graph f).operands user ↔ value ∈ (s.module.graph f).operands user ∧
      ∀ c ∈ rest, ¬(f = c.func ∧ user = c.user ∧ value = c.value ∧ t.Houses c.address) := by
  induction rest generalizing s with
  | nil =>
    cases h
    simp
  | cons c rest ih =>
    rw [redirectAll, List.foldlM_cons] at h
    obtain ⟨s₁, first, h⟩ := Recovering.bind_eq_ok h
    obtain ⟨member, inside⟩ := List.forall_mem_cons.mp inside
    obtain ⟨here, room⟩ := List.forall_mem_cons.mp room
    obtain ⟨immediate, immediates⟩ := List.forall_mem_cons.mp immediates
    have sound₁ := redirect_spec sound exist member immediate first
    rw [ih sound₁ inside room immediates h, redirect_operands sound exist bounded here immediate first old constant,
      List.forall_mem_cons, and_assoc]

end GlobalRedirection

namespace Run

variable {r q : Run} {m : Module} {t : EntityTable} {runs : List Run}

/-- Whether a variable holds all of a run. -/
def IsHoused (t : EntityTable) (r : Run) : Prop :=
  ∃ a k, t.Places a k ∧ a ≤ r.fields.start ∧ r.fields.stop ≤ a + k

/-- Whether the bytes at the start of a run are code. -/
def IsCode (t : EntityTable) (r : Run) : Prop :=
  ∃ f, t.get? r.fields.start = some (.func f)

theorem Takes.isHoused {n : Module} {u : EntityTable} {id : GlobalId} (takes : r.Takes m t n u id)
    (before : q.fields.start < r.fields.start) (housed : q.IsHoused t) : q.IsHoused u := by
  obtain ⟨a, k, places, below, inside⟩ := housed
  exact ⟨a, k, takes.places.mpr (by rwa [if_neg (by omega)]), below, inside⟩

theorem Takes.isCode {n : Module} {u : EntityTable} {id : GlobalId} (takes : r.Takes m t n u id)
    (code : q.IsCode u) : q.IsCode t := by
  obtain ⟨f, found⟩ := code
  rw [takes.get?] at found
  split at found
  next => cases found
  next => exact ⟨f, found⟩

/-- A run that does not start at a function has a variable that holds it, and later runs do not take it away. -/
theorem declareAll_housed (runs : List Run) (exist : t.Exists m) (once : t.Once) (ordered : Ordered runs)
    (recorded : ∀ r ∈ runs, t.RecordedAt m r.fields.start) :
    (∀ r ∈ runs, r.IsCode t ∨ r.IsHoused (declareAll runs m t).2.1) ∧
      ∀ q : Run, (∀ r ∈ runs, q.fields.start < r.fields.start) → q.IsHoused t →
        q.IsHoused (declareAll runs m t).2.1 := by
  induction runs generalizing m t with
  | nil => exact ⟨nofun, fun _ _ housed => housed⟩
  | cons r rs ih =>
    obtain ⟨gap, apart⟩ := List.pairwise_cons.mp ordered.apart
    obtain ⟨whole, rest⟩ := List.forall_mem_cons.mp ordered.whole
    obtain ⟨first, others⟩ := List.forall_mem_cons.mp recorded
    have behind (q : Run) (member : q ∈ rs) : r.fields.start < q.fields.start :=
      Nat.lt_of_le_of_lt whole.1 (gap q member)
    have next : (declareAll (r :: rs) m t).2.1 = (declareAll rs (r.declare m t).1 (r.declare m t).2.1).2.1 := rfl
    rw [next]
    rcases declare_cases exist first with ⟨same, table, place⟩ | ⟨id, takes⟩
    · rw [same, table]
      obtain ⟨homes, keeps⟩ := ih exist once ⟨apart, rest⟩ others
      exact ⟨List.forall_mem_cons.mpr ⟨place.imp_right (keeps r behind), homes⟩,
        fun q before => keeps q (List.forall_mem_cons.mp before).2⟩
    · obtain ⟨homes, keeps⟩ := ih (takes.exist exist) (takes.once exist once) ⟨apart, rest⟩ fun q member =>
        takes.recorded exist once (Nat.ne_of_gt (behind q member)) (others q member)
      have home : r.IsHoused (r.declare m t).2.1 := by
        refine ⟨r.fields.start, r.size, takes.places.mpr (by rw [if_pos rfl]), Nat.le_refl _, ?_⟩
        unfold size
        omega
      refine ⟨List.forall_mem_cons.mpr ⟨.inr (keeps r behind home), fun q member => ?_⟩, fun q before housed => ?_⟩
      · exact (homes q member).imp_left takes.isCode
      · obtain ⟨here, later⟩ := List.forall_mem_cons.mp before
        exact keeps q later (takes.isHoused here housed)

end Run

namespace Module

variable {m n : Module} {t u : EntityTable} {cells : List Cell} {cursor last : EntryCursor}
  {built : BuiltGlobals}

/-- No access is lost but those that start at a function: a cell's user goes on to use its constant exactly if
no entity holds the address, and this can only be if the cell's run starts at a function. -/
theorem buildGlobals_redirects_housed (exist : t.Exists m) (bounded : t.Bounded)
    (immediates : ∀ c ∈ cells, c.IsImmediate m) (solid : ∀ c ∈ cells, 0 < c.size)
    (h : (m.buildGlobals t cells cursor).warnings.1 = .ok (n, u, last, built)) :
    (∀ c ∈ cells, c.value ∈ (n.graph c.func).operands c.user ↔
      c.value ∈ (m.graph c.func).operands c.user ∧ ¬u.Houses c.address) ∧
    (t.Once → (∀ a, t.RecordedAt m a) → ∃ runs, m.runs? t cells = .ok runs ∧ ∀ c ∈ cells,
      ∃ r ∈ runs, r.Spans c.address c.size ∧
        (r.IsCode t ∨ c.value ∉ (n.graph c.func).operands c.user)) := by
  obtain ⟨stop, run⟩ := Recovering.warnings_ok h
  obtain ⟨runs, s, formed, rfl, redirected, rfl, -⟩ := buildGlobals_ok run
  have sorted := Cell.pairwise_sort (.ofTable m t cells) m.layout cells
  obtain ⟨ordered, inRuns⟩ := Run.ofCells_spec sorted formed
  have listed (c : Cell) (member : c ∈ cells) : c ∈ Cell.sort (.ofTable m t cells) m.layout cells :=
    List.mem_mergeSort.mpr member
  have ends (c : Cell) (member : c ∈ cells) : c.address + c.size ≤ maxAddress := by
    obtain ⟨r, inside, spans⟩ := inRuns c (listed c member)
    exact Nat.le_trans spans.2 (ordered.whole r inside).2
  have room (c : Cell) (member : c ∈ cells) : c.address < maxAddress := by
    have last := ends c member
    have some_ := solid c member
    omega
  obtain ⟨same, exist', bounded'⟩ := Run.declareAll_exist runs exist
  have unlisted (c : Cell) (member : c ∈ Cell.sort (.ofTable m t cells) m.layout cells) : c ∈ cells :=
    List.mem_mergeSort.mp member
  have left (c : Cell) (member : c ∈ cells) : c.value ∈ (s.module.graph c.func).operands c.user ↔
      c.value ∈ (m.graph c.func).operands c.user ∧ ¬(Run.declareAll runs m t).2.1.Houses c.address := by
    have immediate := (immediates c member).congr same
    obtain ⟨i, found, number⟩ := immediate.constant
    rw [GlobalRedirection.redirectAll_operands (.start _ _ _ cursor) exist' (bounded' bounded) (fun _ => id)
      (fun d other => room d (unlisted d other)) (fun d other => (immediates d (unlisted d other)).congr same)
      redirected immediate.user (Option.isSome_iff_exists.mpr ⟨i, found⟩)]
    refine and_congr ?_ ⟨fun none houses => ?_, fun homeless d other => ?_⟩
    · rw [Graph.operands, Graph.inst?, same.insts, Graph.operands, Graph.inst?]
    · exact none c (listed c member) ⟨rfl, rfl, rfl, houses⟩
    · rintro ⟨func, -, value, houses⟩
      -- The cells of one constant have one address.
      obtain ⟨j, again, same'⟩ := ((immediates d (unlisted d other)).congr same).constant
      rw [← func, ← value, found] at again
      rw [← number, Option.some.inj again, same'] at homeless
      exact homeless houses
  refine ⟨left, fun once recorded => ⟨runs, formed, fun c member => ?_⟩⟩
  obtain ⟨r, inside, spans⟩ := inRuns c (listed c member)
  obtain ⟨homes, -⟩ := Run.declareAll_housed runs exist once ordered fun r _ => recorded r.fields.start
  refine ⟨r, inside, spans, (homes r inside).imp_right ?_⟩
  rintro ⟨a, k, places, below, whole⟩ operand
  have some_ := solid c member
  obtain ⟨first, last⟩ := spans
  exact ((left c member).mp operand).2 (places.houses (by omega) (by omega))

theorem constantReadCells_immediate : ∀ c ∈ constantReadCells, c.IsImmediate constantReads := by
  intro c member
  simp only [constantReadCells, List.mem_cons, List.not_mem_nil, or_false] at member
  rcases member with rfl | rfl
  · exact ⟨by decide +kernel, .ofInt .i64 4096, by decide +kernel, by decide⟩
  · exact ⟨by decide +kernel, .ofInt .i32 4104, by decide +kernel, by decide⟩

/-- Without entities, a variable is made for both reads. -/
theorem constantReads_redirected : EntityTable.empty.Exists constantReads ∧ EntityTable.empty.Bounded ∧
    (∀ c ∈ constantReadCells, c.IsImmediate constantReads ∧ 0 < c.size) ∧ ∃ n u last built,
      (constantReads.buildGlobals .empty constantReadCells .start).warnings.1 = .ok (n, u, last, built) ∧
      ∀ c ∈ constantReadCells, u.Houses c.address ∧ c.value ∉ (n.graph c.func).operands c.user := by
  have exist : EntityTable.empty.Exists constantReads := fun a e found => by cases found
  have bounded : EntityTable.empty.Bounded := fun a k places => by cases places.choose_spec
  have solid : ∀ c ∈ constantReadCells, 0 < c.size := by decide
  have run : ((constantReads.buildGlobals .empty constantReadCells .start).warnings.1.toOption.map
      fun r => r.2.1.entities.find? 4096) = some (some (.var ⟨1⟩, 12)) := by cbv
  obtain ⟨⟨n, u, last, built⟩, same, found⟩ := Option.map_eq_some_iff.mp run
  have h := Recovering.ok_of_toOption same
  obtain ⟨-, lost⟩ := buildGlobals_redirects_housed exist bounded constantReadCells_immediate solid h
  obtain ⟨runs, -, redirected⟩ := lost (fun a b id found => by cases found) fun a id k v found => by cases found
  refine ⟨exist, bounded, fun c member => ⟨constantReadCells_immediate c member, solid c member⟩,
    n, u, last, built, h, fun c member => ⟨?_, ?_⟩⟩
  · have places : u.Places 4096 12 := ⟨_, found⟩
    simp only [constantReadCells, List.mem_cons, List.not_mem_nil, or_false] at member
    rcases member with rfl | rfl
    · exact places.houses (by decide) (by decide)
    · exact places.houses (by decide) (by decide)
  · obtain ⟨r, -, -, ⟨f, code⟩ | rewritten⟩ := redirected c member
    · cases code
    · exact rewritten

/-- A function lies where the first read begins, and the second read goes on behind it. -/
def codeTable : EntityTable := (EntityTable.empty.insertFunc constantReads 4096 ⟨0⟩).1

theorem constantReads_behindCode : (∀ c ∈ constantReadCells, 0 < c.size) ∧ codeTable.get? 4104 = none ∧
    ∃ n u last built, (constantReads.buildGlobals codeTable constantReadCells .start).warnings.1 =
      .ok (n, u, last, built) ∧ ⟨3⟩ ∈ (n.graph ⟨0⟩).operands ⟨2⟩ := by
  have run : ((constantReads.buildGlobals codeTable constantReadCells .start).warnings.1.toOption.map
      fun r => (r.1.graph ⟨0⟩).operands ⟨2⟩) = some [⟨3⟩] := by cbv
  obtain ⟨⟨n, u, last, built⟩, same, operands⟩ := Option.map_eq_some_iff.mp run
  exact ⟨by decide, by decide +kernel, n, u, last, built, Recovering.ok_of_toOption same,
    operands ▸ List.mem_singleton_self _⟩

end Module

end VarRecovery
