import Mathlib.Order.Bounds.Basic
import VarRecovery.Proofs.Region.Apart

/-!
Which variable covers an address. Variables of a table may overlap, and the nearest one that has an address covers it. A
run gets a variable although one has all of it, if a nearer one that has its start ends within it.
-/

set_option autoImplicit false

namespace VarRecovery

namespace EntityTable

/-- Tables that placing entities and resizing makes from the empty one. -/
inductive Reached : EntityTable → Prop
  | empty : Reached .empty
  | insertFunc {t : EntityTable} (m : Module) (address : Nat) (f : FuncId) :
      Reached t → Reached (t.insertFunc m address f).1
  | insertVar {t : EntityTable} (m : Module) (address : Nat) (id : GlobalId) (size : Nat) :
      Reached t → Reached (t.insertVar m address id size).1
  | resize {t : EntityTable} (address size : Nat) : Reached t → Reached (t.resize address size)

/-- Where the variables that have an address start. -/
def covers (t : EntityTable) (x : Nat) : Set Nat :=
  {start | ∃ size, t.Places start size ∧ start ≤ x ∧ x < start + size}

variable {t : EntityTable} {m : Module} {a k x : Nat} {id : GlobalId}

/-! ### No variable is larger than a table takes them to be -/

theorem Bounded.put (bounded : t.Bounded) (address size : Nat) (e : Entity) :
    Bounded ⟨t.entities.insert address (e, size), max t.maxVariableSize size⟩ := by
  rintro a k ⟨id, found⟩
  rw [AddressMap.find?_insert] at found
  split at found
  next =>
    cases found
    exact Nat.le_max_right _ _
  next => exact Nat.le_trans (bounded a k ⟨id, found⟩) (Nat.le_max_left _ _)

theorem Bounded.insertFunc (bounded : t.Bounded) (m : Module) (address : Nat) (f : FuncId) :
    (t.insertFunc m address f).1.Bounded := by
  rintro a k ⟨id, found⟩
  simp only [EntityTable.insertFunc, AddressMap.find?_insert] at found
  split at found
  next => cases found
  next => exact bounded a k ⟨id, found⟩

theorem Bounded.insertVar (bounded : t.Bounded) (m : Module) (address : Nat) (id : GlobalId) (size : Nat) :
    (t.insertVar m address id size).1.Bounded := by
  have placed : (t.putVar address id size).Bounded := bounded.put address size _
  unfold EntityTable.insertVar
  split
  next => exact placed
  next => exact bounded
  next =>
    split
    next => exact bounded
    next =>
      split
      next => exact bounded
      next => exact placed

theorem Bounded.resize (bounded : t.Bounded) (address size : Nat) : (t.resize address size).Bounded := by
  unfold EntityTable.resize
  split
  next entity old found => exact bounded.put address size entity
  next => exact bounded

theorem Reached.bounded (reached : t.Reached) : t.Bounded := by
  induction reached with
  | empty => exact fun a k places => by cases places.choose_spec
  | insertFunc m address f _ bounded => exact bounded.insertFunc m address f
  | insertVar m address id size _ bounded => exact bounded.insertVar m address id size
  | resize address size _ bounded => exact bounded.resize address size

theorem Reached.declare (reached : t.Reached) (r : Run) (m : Module) : (r.declare m t).2.1.Reached := by
  unfold Run.declare
  split
  next => exact reached
  next id here =>
    split
    next v known =>
      simp only [Run.retype]
      split
      next => exact reached.resize _ _
      next => exact reached
    next => exact reached
  next =>
    split
    next => exact reached
    next => exact reached.insertVar _ _ _ _

/-! ### The nearest variable -/

theorem coveredBy?_eq_some_iff (room : x < maxAddress) {e : Nat × Entity × Nat} :
    coveredBy? x e = some (a, id, k) ↔ e = (a, .var id, k) ∧ x < a + k := by
  obtain ⟨start, entity, size⟩ := e
  cases entity with
  | func f => simp [coveredBy?]
  | var other =>
    have clipped : x < clipAddress (start + size) ↔ x < start + size :=
      ⟨fun inside => Nat.lt_of_lt_of_le inside (Nat.min_le_left _ _), fun inside => Nat.lt_min.mpr ⟨inside, room⟩⟩
    simp only [coveredBy?, clipped, Option.ite_none_right_eq_some, Option.some.injEq, Prod.mk.injEq, Entity.var.injEq]
    constructor
    · rintro ⟨inside, rfl, rfl, rfl⟩
      exact ⟨⟨rfl, rfl, rfl⟩, inside⟩
    · rintro ⟨⟨rfl, rfl, rfl⟩, inside⟩
      exact ⟨inside, rfl, rfl, rfl⟩

theorem lt_maxAddress_of_covering? (covered : t.covering? x = some (a, id, k)) : x < maxAddress := by
  obtain ⟨⟨start, entity, size⟩, -, reaches⟩ := List.exists_of_findSome?_eq_some covered
  cases entity with
  | func f => cases reaches
  | var other =>
    simp only [coveredBy?, Option.ite_none_right_eq_some] at reaches
    exact Nat.lt_of_lt_of_le reaches.1 (Nat.min_le_right _ _)

/-- What is found starts last: an entry that starts later would have come before it. -/
theorem isGreatest_of_covering? (bounded : t.Bounded) (room : x < maxAddress)
    (covered : t.covering? x = some (a, id, k)) : IsGreatest (t.covers x) a := by
  obtain ⟨found, below, inside⟩ := covering?_sound covered
  refine ⟨⟨k, ⟨id, found⟩, below, inside⟩, fun b ⟨l, ⟨other, there⟩, low, high⟩ => Nat.le_of_not_lt fun later => ?_⟩
  have large : l ≤ t.maxVariableSize := bounded b l ⟨other, there⟩
  have listed : (b, Entity.var other, l) ∈ t.entities.between (x - t.maxVariableSize) x :=
    AddressMap.mem_between.mpr ⟨AddressMap.find?_eq_some_iff.mp there, by simp only; omega, low⟩
  have hit : coveredBy? x (b, .var other, l) = some (b, other, l) := (coveredBy?_eq_some_iff room).mpr ⟨rfl, high⟩
  obtain ⟨before, e, after, split, here, missed⟩ := List.findSome?_eq_some_iff.mp covered
  obtain ⟨rfl, -⟩ := (coveredBy?_eq_some_iff room).mp here
  have descending : (before ++ (a, Entity.var id, k) :: after).Pairwise (·.1 > ·.1) :=
    split ▸ AddressMap.descending_between
  rw [split] at listed
  rcases List.mem_append.mp listed with front | rest
  · cases (missed _ front).symm.trans hit
  · rcases List.mem_cons.mp rest with same | behind
    · cases same
      exact Nat.lt_irrefl _ later
    · have earlier := (List.pairwise_cons.mp (List.pairwise_append.mp descending).2.1).1 _ behind
      exact Nat.lt_asymm later earlier

theorem covering?_eq_none_iff (bounded : t.Bounded) (room : x < maxAddress) :
    t.covering? x = none ↔ t.covers x = ∅ := by
  constructor
  · refine fun none => Set.eq_empty_of_forall_notMem fun a ⟨k, places, below, inside⟩ => ?_
    have some_ := covering?_isSome bounded places below inside room
    rw [none] at some_
    cases some_
  · refine fun empty => Option.eq_none_iff_forall_ne_some.mpr fun ⟨a, id, k⟩ covered => ?_
    exact (empty ▸ (isGreatest_of_covering? bounded room covered).1 : a ∈ (∅ : Set Nat))

theorem covering?_eq_some_iff (bounded : t.Bounded) (room : x < maxAddress) : t.covering? x = some (a, id, k) ↔
    t.entities.find? a = some (.var id, k) ∧ IsGreatest (t.covers x) a := by
  refine ⟨fun covered => ⟨(covering?_sound covered).1, isGreatest_of_covering? bounded room covered⟩, ?_⟩
  rintro ⟨found, greatest⟩
  obtain ⟨l, places, below, inside⟩ := greatest.1
  obtain ⟨⟨b, other, size⟩, covered⟩ :=
    Option.isSome_iff_exists.mp (covering?_isSome bounded places below inside room)
  obtain rfl := greatest.unique (isGreatest_of_covering? bounded room covered)
  cases found.symm.trans (covering?_sound covered).1
  exact covered

/-- The variable that covers an address is the last to start of all that have it, wherever functions lie, and none
covers it if none has it. -/
theorem Reached.covering?_nearest (reached : t.Reached) (room : x < maxAddress) :
    (∀ start id size, t.covering? x = some (start, id, size) ↔
      t.entities.find? start = some (.var id, size) ∧ IsGreatest (t.covers x) start) ∧
    (t.covering? x = none ↔ ∀ start size, t.Places start size → start ≤ x → ¬x < start + size) := by
  refine ⟨fun _ _ _ => covering?_eq_some_iff reached.bounded room, ?_⟩
  rw [covering?_eq_none_iff reached.bounded room, Set.eq_empty_iff_forall_notMem]
  exact ⟨fun none a k places below inside => none a ⟨k, places, below, inside⟩,
    fun none a ⟨k, places, below, inside⟩ => none a k places below inside⟩

end EntityTable

/-- Code and an integer in an array. -/
def Module.nestedVariables : Module :=
  { empty ⟨.x86_64, .unknown, .linux⟩ with
    globals := #[⟨"outer", .array .i8 32, .internal, false⟩, ⟨"inner", .i32, .internal, false⟩]
    funcs := #[.declare ⟨"code", .exported, [], .unit, none, false, false⟩ []] }

namespace EntityTable

def nestedTable : EntityTable :=
  let t := (EntityTable.empty.insertVar .nestedVariables 4096 ⟨0⟩ 32).1
  let t := (t.insertFunc .nestedVariables 4100 ⟨0⟩).1
  (t.insertVar .nestedVariables 4104 ⟨1⟩ 4).1

theorem reached_nestedTable : nestedTable.Reached :=
  ((Reached.empty.insertVar _ _ _ _).insertFunc _ _ _).insertVar _ _ _ _

/-- Eight bytes are read where the integer lies. -/
def widenedTable : EntityTable :=
  ((Run.ofCell (.ofArchitecture .x86_64) ⟨⟨0⟩, 4104, .int .i64, 8, .plain, ⟨0⟩, ⟨0⟩⟩).declare .nestedVariables
    nestedTable).2.1

theorem widenedTable_nearest : 4110 < maxAddress ∧ widenedTable.Reached ∧
    widenedTable.get? 4100 = some (.func ⟨0⟩) ∧ widenedTable.covering? 4102 = some (4096, ⟨0⟩, 32) ∧
    widenedTable.covering? 4110 = some (4104, ⟨1⟩, 8) ∧ IsGreatest (widenedTable.covers 4110) 4104 ∧
    widenedTable.covering? 4128 = none := by
  have reached : widenedTable.Reached := reached_nestedTable.declare _ _
  have covered : widenedTable.covering? 4110 = some (4104, ⟨1⟩, 8) := by decide +kernel
  obtain ⟨known, -⟩ := reached.covering?_nearest (show 4110 < maxAddress by decide)
  exact ⟨by decide, reached, by decide +kernel, by decide +kernel, covered, ((known _ _ _).mp covered).2,
    by decide +kernel⟩

end EntityTable

namespace Run

variable {r : Run} {m : Module} {t : EntityTable}

/-- The nearest variable that has the start of a run has all of it. -/
def Nested (r : Run) (t : EntityTable) : Prop :=
  r.fields.start < maxAddress ∧
    ∃ a k, t.Places a k ∧ IsGreatest (t.covers r.fields.start) a ∧ r.fields.stop ≤ a + k

theorem isCovered_iff (bounded : t.Bounded) (room : r.fields.stop ≤ maxAddress) :
    r.isCovered t = true ↔ r.Nested t := by
  unfold isCovered
  constructor
  · intro covered
    split at covered
    next a id k found =>
      have within := of_decide_eq_true covered
      have start : r.fields.start < maxAddress := EntityTable.lt_maxAddress_of_covering? found
      obtain ⟨there, greatest⟩ := (EntityTable.covering?_eq_some_iff bounded start).mp found
      exact ⟨start, a, k, ⟨id, there⟩, greatest, Nat.le_trans within (Nat.min_le_left _ _)⟩
    next => cases covered
  · rintro ⟨start, a, k, ⟨id, found⟩, greatest, within⟩
    rw [(EntityTable.covering?_eq_some_iff bounded start).mpr ⟨found, greatest⟩]
    exact decide_eq_true (Nat.le_min.mpr ⟨within, room⟩)

/-- Where variables have no byte in common, one that has all of a run is the nearest. -/
theorem nested_of_apart (apart : t.Apart) {a k : Nat} (places : t.Places a k) (below : a ≤ r.fields.start)
    (solid : r.fields.start < r.fields.stop) (inside : r.fields.stop ≤ a + k) (room : r.fields.stop ≤ maxAddress) :
    r.Nested t := by
  have has : r.fields.start < a + k := Nat.lt_of_lt_of_le solid inside
  refine ⟨Nat.lt_of_lt_of_le solid room, a, k, places, ⟨⟨k, places, below, has⟩, ?_⟩, inside⟩
  rintro b ⟨l, other, low, high⟩
  exact Nat.le_of_eq (apart b l a k _ other places low high below has)

/-- A run that starts where no entity lies is left as it is exactly if the nearest variable that has its start has all
of it, whatever other variables have it. Any other gets a variable of its own. Where variables have no byte in common, no
run in one of them gets a variable. -/
theorem declare_nested (reached : t.Reached) (free : t.get? r.fields.start = none)
    (room : r.fields.stop ≤ maxAddress) :
    (r.declare m t = (m, t, false, []) ↔ r.Nested t) ∧
    (¬r.Nested t → (r.declare m t).2.2.1 = true ∧ (r.declare m t).1.globals.size = m.globals.size + 1 ∧
      (r.declare m t).2.1.entities.find? r.fields.start = some (.var ⟨m.globals.size⟩, r.size)) ∧
    (t.Apart → ∀ a k, t.Places a k → a ≤ r.fields.start → r.fields.start < r.fields.stop → r.fields.stop ≤ a + k →
      r.declare m t = (m, t, false, [])) := by
  have made : r.declare m t = if r.isCovered t then (m, t, false, []) else r.create m t := by rw [declare, free]
  have lone (none : ¬r.Nested t) : r.declare m t = r.create m t := by
    rw [made, if_neg fun covered => none ((isCovered_iff reached.bounded room).mp covered)]
  have kept : r.declare m t = (m, t, false, []) ↔ r.Nested t := by
    refine ⟨fun same => by_contra fun none => ?_, fun nested => ?_⟩
    · have created := congrArg (·.2.2.1) ((lone none).symm.trans same)
      simp [create_of_free free] at created
    · rw [made, if_pos ((isCovered_iff reached.bounded room).mpr nested)]
  refine ⟨kept, fun none => ?_, fun apart a k places below solid inside =>
    kept.mpr (nested_of_apart apart places below solid inside room)⟩
  rw [lone none, create_of_free free]
  exact ⟨rfl, Array.size_push _, (AddressMap.find?_insert _ _ _ _).trans (if_pos rfl)⟩

/-- A read in the integer, which lies in the array. -/
def innerRun : Run :=
  ofCell (.ofArchitecture .x86_64) ⟨⟨0⟩, 4106, .int .i16, 2, .plain, ⟨0⟩, ⟨0⟩⟩

theorem innerRun_nested : EntityTable.nestedTable.Reached ∧ EntityTable.nestedTable.get? innerRun.fields.start = none ∧
    innerRun.fields.stop ≤ maxAddress ∧ innerRun.Nested .nestedTable ∧
    innerRun.declare .nestedVariables .nestedTable = (.nestedVariables, .nestedTable, false, []) := by
  have reached := EntityTable.reached_nestedTable
  have free : EntityTable.nestedTable.get? innerRun.fields.start = none := by decide +kernel
  have room : innerRun.fields.stop ≤ maxAddress := by decide +kernel
  have nested : innerRun.Nested .nestedTable := (isCovered_iff reached.bounded room).mp (by decide +kernel)
  exact ⟨reached, free, room, nested, (declare_nested reached free room).1.mpr nested⟩

/-- A read that begins in the integer and ends behind it, in the array. -/
def overlookedRun : Run :=
  ofCell (.ofArchitecture .x86_64) ⟨⟨0⟩, 4105, .int .i64, 8, .plain, ⟨0⟩, ⟨0⟩⟩

theorem overlookedRun_created : EntityTable.nestedTable.Reached ∧ EntityTable.nestedTable.Places 4096 32 ∧
    4096 ≤ overlookedRun.fields.start ∧ overlookedRun.fields.stop ≤ 4096 + 32 ∧
    EntityTable.nestedTable.get? overlookedRun.fields.start = none ∧
    (overlookedRun.declare .nestedVariables .nestedTable).2.2.1 = true ∧
    (overlookedRun.declare .nestedVariables .nestedTable).2.1.get? 4105 = some (.var ⟨2⟩) :=
  ⟨EntityTable.reached_nestedTable, ⟨⟨0⟩, by decide +kernel⟩, by decide +kernel, by decide +kernel, by decide +kernel,
    by decide +kernel, by decide +kernel⟩

end Run

end VarRecovery
