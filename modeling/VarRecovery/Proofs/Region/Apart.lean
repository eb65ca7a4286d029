import VarRecovery.Proofs.Region.Run
import VarRecovery.Proofs.Region.Variables

/-!
Bytes with one home. Variables of a table have no byte in common, and stay so when runs of cells get variables,
if each run that needs one is clear of the other variables.
-/

set_option autoImplicit false

namespace VarRecovery

namespace EntityTable

/-- A variable lies at an address and takes so many bytes. -/
def Places (t : EntityTable) (start size : Nat) : Prop :=
  ∃ id, t.entities.find? start = some (.var id, size)

/-- No byte belongs to two variables. -/
def Apart (t : EntityTable) : Prop :=
  ∀ a k b l x, t.Places a k → t.Places b l → a ≤ x → x < a + k → b ≤ x → x < b + l → a = b

/-- No variable is larger than a table takes them to be. -/
def Bounded (t : EntityTable) : Prop :=
  ∀ a k, t.Places a k → k ≤ t.maxVariableSize

/-- No variable lies at two addresses. -/
def Once (t : EntityTable) : Prop :=
  ∀ a b id, t.get? a = some (.var id) → t.get? b = some (.var id) → a = b

/-- A variable at an address takes the bytes of its type there, or more. -/
def RecordedAt (t : EntityTable) (m : Module) (a : Nat) : Prop :=
  ∀ id k v, t.entities.find? a = some (.var id, k) → m.global? id = some v →
    (m.layout.allocSize? v.ty).getD 0 ≤ k

variable {t : EntityTable} {a k l x : Nat}

theorem Places.size_eq (first : t.Places a k) (second : t.Places a l) : k = l := by
  obtain ⟨id, found⟩ := first
  obtain ⟨jd, again⟩ := second
  cases found.symm.trans again
  rfl

theorem places_of_get? {id : GlobalId} (found : t.get? a = some (.var id)) : ∃ k, t.Places a k := by
  obtain ⟨k, known⟩ := get?_eq_some.mp found
  exact ⟨k, id, known⟩

theorem covering?_isSome (bounded : t.Bounded) (places : t.Places a k) (below : a ≤ x) (inside : x < a + k)
    (room : x < maxAddress) : (t.covering? x).isSome := by
  obtain ⟨id, found⟩ := places
  have large : k ≤ t.maxVariableSize := bounded a k ⟨id, found⟩
  have member : (a, Entity.var id, k) ∈ t.entities.between (x - t.maxVariableSize) x :=
    AddressMap.mem_between.mpr ⟨AddressMap.find?_eq_some_iff.mp found, by simp only; omega, below⟩
  have covers : coveredBy? x (a, Entity.var id, k) = some (a, id, k) :=
    if_pos (Nat.lt_min.mpr ⟨inside, room⟩)
  exact List.findSome?_isSome_iff.mpr ⟨_, member, by rw [covers]; rfl⟩

theorem covering?_eq_some (apart : t.Apart) (bounded : t.Bounded) (places : t.Places a k) (below : a ≤ x)
    (inside : x < a + k) (room : x < maxAddress) : ∃ id, t.covering? x = some (a, id, k) := by
  obtain ⟨⟨b, jd, l⟩, covered⟩ :=
    Option.isSome_iff_exists.mp (covering?_isSome bounded places below inside room)
  obtain ⟨there, start, stop⟩ := covering?_sound covered
  obtain rfl : a = b := apart a k b l x places ⟨jd, there⟩ below inside start stop
  obtain rfl := places.size_eq ⟨jd, there⟩
  exact ⟨jd, covered⟩

end EntityTable

namespace Run

variable {r q : Run} {m : Module} {t : EntityTable} {cells : List Cell} {a k x : Nat}

/-- A run lies as variables can take it: it lies in one, or is clear of all but one that starts where it does. One
that starts at a function gets no variable, so its cells have to lie in the variables that are there. -/
inductive Sits (t : EntityTable) (cells : List Cell) (r : Run) : Prop
  | code (f : FuncId) (at_ : t.get? r.fields.start = some (.func f))
      (stay : ∀ c ∈ cells, r.Spans c.address c.size → ∀ a k, t.Places a k → a ≤ c.address → c.address < a + k →
        c.address + c.size ≤ a + k)
  | within (a k : Nat) (places : t.Places a k) (below : a ≤ r.fields.start) (inside : r.fields.stop ≤ a + k)
  | alone (clear : ∀ a k x, t.Places a k → a ≤ x → x < a + k → r.fields.start ≤ x → x < r.fields.stop →
      a = r.fields.start)

/-- What has to hold of a run before it gets a variable. -/
structure Ready (m : Module) (t : EntityTable) (cells : List Cell) (r : Run) : Prop where
  sits : r.Sits t cells
  recorded : t.RecordedAt m r.fields.start
  /-- No empty variable starts in the run. -/
  solid : ∀ a k, t.Places a k → r.fields.start ≤ a → a < r.fields.stop → 0 < k

/-- A variable that holds the address of a cell of the run, or starts there, holds the cell. -/
def Homes (t : EntityTable) (cells : List Cell) (r : Run) : Prop :=
  ∀ c ∈ cells, r.Spans c.address c.size → ∀ a k, t.Places a k → a ≤ c.address →
    a = c.address ∨ c.address < a + k → c.address + c.size ≤ a + k

/-- The variable `id` takes a run, which has none, or is as large as the run now. -/
structure Takes (r : Run) (m : Module) (t : EntityTable) (n : Module) (u : EntityTable) (id : GlobalId) : Prop where
  find : ∀ a, u.entities.find? a =
    if a = r.fields.start then some (.var id, r.size) else t.entities.find? a
  bound : u.maxVariableSize = max t.maxVariableSize r.size
  layout : n.layout = m.layout
  globals : ∀ j v, j ≠ id → m.global? j = some v → n.global? j = some v
  there : n.Has (.var id)
  same : m.SameCode n
  old : t.get? r.fields.start = some (.var id) ∨
    t.get? r.fields.start = none ∧ r.isCovered t = false ∧ m.global? id = none

theorem outgrown_takes {id : GlobalId} {v : GlobalVar} (at_ : t.get? r.fields.start = some (.var id))
    (known : m.global? id = some v) (types : TyStore) (ty : Ty) (same : m.SameCode ({ m with types }.setGlobalTy id ty)) :
    r.Takes m t ({ m with types }.setGlobalTy id ty) (t.resize r.fields.start r.size) id := by
  obtain ⟨k, found⟩ := EntityTable.get?_eq_some.mp at_
  have global (j : GlobalId) : ({ m with types }.setGlobalTy id ty).global? j =
      (m.global? j).map fun v => if j = id then { v with ty } else v := Module.global?_setGlobalTy _ id ty j
  rw [EntityTable.resize, found]
  refine ⟨AddressMap.find?_insert _ _ _, rfl, rfl, fun j w other before => ?_, ⟨{ v with ty }, ?_⟩, same, .inl at_⟩
  · rw [global, before, Option.map_some, if_neg other]
  · rw [global, known, Option.map_some, if_pos rfl]

/-- Declaring a run changes nothing, since it starts at a function or lies in a variable, or a variable takes it. -/
theorem Declares.takes {n : Module} {u : EntityTable} (declares : r.Declares m t n u) (exist : t.Exists m) :
    n = m ∧ u = t ∧ (t.RecordedAt m r.fields.start → (∃ f, t.get? r.fields.start = some (.func f)) ∨
      ∃ a k, t.Places a k ∧ a ≤ r.fields.start ∧ r.fields.stop ≤ a + k) ∨
    ∃ id, r.Takes m t n u id := by
  have same := declares.sameCode
  cases declares with
  | settled settled =>
    refine .inl ⟨rfl, rfl, fun recorded => ?_⟩
    cases settled with
    | code f here => exact .inl ⟨f, here⟩
    | fits id here large =>
      obtain ⟨v, known⟩ := exist _ _ here
      obtain ⟨k, found⟩ := EntityTable.get?_eq_some.mp here
      refine .inr ⟨_, k, ⟨id, found⟩, Nat.le_refl _, ?_⟩
      have room := recorded id k v found known
      have all := large v known
      unfold size at all
      omega
    | covered _ covered =>
      unfold isCovered at covered
      split at covered
      next start id size cover =>
        obtain ⟨found, below, -⟩ := EntityTable.covering?_sound cover
        refine .inr ⟨start, size, ⟨id, found⟩, below, ?_⟩
        exact Nat.le_trans (of_decide_eq_true covered) (Nat.min_le_left _ _)
      next => cases covered
  | outgrown id v here known _ types => exact .inr ⟨id, outgrown_takes here known types _ same⟩
  | created free uncovered =>
    have new : m.global? ⟨m.globals.size⟩ = none := Array.getElem?_eq_none (Nat.le_refl m.globals.size)
    exact .inr ⟨_, AddressMap.find?_insert _ _ _, rfl, rfl, fun _ _ _ => global?_create,
      ⟨_, Array.getElem?_push_size⟩, same, .inr ⟨free, uncovered, new⟩⟩

theorem declare_cases (exist : t.Exists m) (recorded : t.RecordedAt m r.fields.start) :
    (r.declare m t).1 = m ∧ (r.declare m t).2.1 = t ∧ ((∃ f, t.get? r.fields.start = some (.func f)) ∨
      ∃ a k, t.Places a k ∧ a ≤ r.fields.start ∧ r.fields.stop ≤ a + k) ∨
    ∃ id, r.Takes m t (r.declare m t).1 (r.declare m t).2.1 id :=
  ((r.declares m t).takes exist).imp_left fun ⟨same, table, place⟩ => ⟨same, table, place recorded⟩

/-! ### What a table is afterwards -/

section Takes

variable {n : Module} {u : EntityTable} {id : GlobalId}

theorem Takes.places (takes : r.Takes m t n u id) :
    u.Places a k ↔ if a = r.fields.start then k = r.size else t.Places a k := by
  unfold EntityTable.Places
  rw [takes.find]
  split
  next => simp [eq_comm]
  next => exact Iff.rfl

theorem Takes.get? (takes : r.Takes m t n u id) (a : Nat) :
    u.get? a = if a = r.fields.start then some (.var id) else t.get? a := by
  rw [EntityTable.get?, takes.find]
  split <;> rfl

theorem Takes.exist (takes : r.Takes m t n u id) (exist : t.Exists m) : u.Exists n := by
  intro a e found
  rw [takes.get?] at found
  split at found
  next => cases found; exact takes.there
  next => exact takes.same.has (exist a e found)

/-- The variable of a run lies nowhere else. -/
theorem Takes.nowhere (takes : r.Takes m t n u id) (exist : t.Exists m) (once : t.Once)
    (found : t.get? a = some (.var id)) : a = r.fields.start := by
  rcases takes.old with here | ⟨-, -, new⟩
  · exact once a _ id found here
  · obtain ⟨v, known⟩ := exist a _ found
    cases new.symm.trans known

theorem Takes.once (takes : r.Takes m t n u id) (exist : t.Exists m) (once : t.Once) : u.Once := by
  intro a b jd first second
  rw [takes.get?] at first second
  split at first <;> split at second
  next here too => exact here.trans too.symm
  next here elsewhere => cases first; exact absurd (takes.nowhere exist once second) elsewhere
  next elsewhere here => cases second; exact absurd (takes.nowhere exist once first) elsewhere
  next => exact once a b jd first second

theorem Takes.bounded (takes : r.Takes m t n u id) (bounded : t.Bounded) : u.Bounded := by
  intro a k places
  rw [takes.places] at places
  rw [takes.bound]
  split at places
  next => exact places ▸ Nat.le_max_right _ _
  next => exact Nat.le_trans (bounded a k places) (Nat.le_max_left _ _)

/-- A run that is taken has no byte in another variable. -/
theorem Takes.clear (takes : r.Takes m t n u id) (apart : t.Apart) (bounded : t.Bounded)
    (ready : r.Ready m t cells) (room : r.fields.stop ≤ maxAddress) (places : t.Places a k) (below : a ≤ x)
    (inside : x < a + k) (start : r.fields.start ≤ x) (stop : x < r.fields.stop) : a = r.fields.start := by
  cases ready.sits with
  | code f at_ =>
    rcases takes.old with here | ⟨free, -⟩
    · cases at_.symm.trans here
    · cases at_.symm.trans free
  | within b l holds first last =>
    obtain rfl : a = b := apart a k b l x places holds below inside (by omega) (by omega)
    rcases takes.old with here | ⟨-, uncovered, -⟩
    · obtain ⟨j, self⟩ := EntityTable.places_of_get? here
      have solid := ready.solid _ j self (Nat.le_refl _) (by omega)
      exact apart a l _ j r.fields.start holds self first (by omega) (Nat.le_refl _) (by omega)
    · -- Its start would have been found covered.
      obtain ⟨jd, covered⟩ := EntityTable.covering?_eq_some apart bounded holds first (by omega)
        (Nat.lt_of_lt_of_le (Nat.lt_of_le_of_lt start stop) room)
      rw [isCovered, covered] at uncovered
      exact absurd (Nat.le_min.mpr ⟨last, room⟩) (of_decide_eq_false uncovered)
  | alone clear => exact clear a k x places below inside start stop

theorem Takes.apart (takes : r.Takes m t n u id) (apart : t.Apart) (bounded : t.Bounded)
    (ready : r.Ready m t cells) (room : r.fields.stop ≤ maxAddress) : u.Apart := by
  intro a k b l x first second belowA insideA belowB insideB
  rw [takes.places] at first second
  unfold size at first second
  split at first <;> split at second
  next here too => exact here.trans too.symm
  next here elsewhere =>
    exact absurd (takes.clear apart bounded ready room second belowB insideB (by omega) (by omega)) elsewhere
  next elsewhere here =>
    exact absurd (takes.clear apart bounded ready room first belowA insideA (by omega) (by omega)) elsewhere
  next => exact apart a k b l x first second belowA insideA belowB insideB

theorem Takes.recorded (takes : r.Takes m t n u id) (exist : t.Exists m) (once : t.Once)
    (other : a ≠ r.fields.start) (recorded : t.RecordedAt m a) : u.RecordedAt n a := by
  intro jd k v found known
  rw [takes.find, if_neg other] at found
  have at_ : t.get? a = some (.var jd) := EntityTable.get?_eq_some.mpr ⟨k, found⟩
  have differ : jd ≠ id := by
    rintro rfl
    exact other (takes.nowhere exist once at_)
  obtain ⟨w, before⟩ := exist _ _ at_
  cases known.symm.trans (takes.globals jd w differ before)
  rw [takes.layout]
  exact recorded jd k v found before

/-- What is ready, and lies behind a run that is taken, stays ready. -/
theorem Takes.ready (takes : r.Takes m t n u id) (exist : t.Exists m) (once : t.Once) (apart : t.Apart)
    (whole : r.fields.start ≤ r.fields.stop) (behind : r.fields.stop < q.fields.start)
    (ready : q.Ready m t cells) : q.Ready n u cells := by
  have other : q.fields.start ≠ r.fields.start := by omega
  refine ⟨?sits, takes.recorded exist once other ready.recorded, fun a k places start stop => ?solid⟩
  case sits =>
    cases ready.sits with
    | code f at_ stay =>
      refine .code f ((takes.get? _).trans ((if_neg other).trans at_)) fun c member spans a k places below inside => ?_
      have start := spans.1
      rw [takes.places] at places
      unfold size at places
      split at places
      next => omega
      next => exact stay c member spans a k places below inside
    | within a k places below inside =>
      by_cases here : a = r.fields.start
      · -- The variable may have become smaller, and what lay in it is clear of all variables.
        refine .alone fun b l x others first last start stop => ?_
        rw [takes.places] at others
        unfold size at others
        split at others
        next => omega
        next elsewhere =>
          exact absurd (apart b l a k x others places first last (by omega) (by omega)) fun same =>
            elsewhere (same.trans here)
      · exact .within a k (takes.places.mpr (by rwa [if_neg here])) below inside
    | alone clear =>
      refine .alone fun a k x places below inside start stop => ?_
      rw [takes.places] at places
      unfold size at places
      split at places
      next => omega
      next => exact clear a k x places below inside start stop
  case solid =>
    rw [takes.places] at places
    split at places
    next => omega
    next => exact ready.solid a k places start stop

theorem Takes.homes (takes : r.Takes m t n u id) (before : q.fields.stop < r.fields.start) (homes : q.Homes t cells) :
    q.Homes u cells := by
  intro c member spans a k places below holds
  have stop := spans.2
  rw [takes.places] at places
  split at places
  next => omega
  next => exact homes c member spans a k places below holds

end Takes

/-! ### Cells -/

theorem homes_of_within (apart : t.Apart) {b l : Nat} (holds : t.Places b l) (below : b ≤ r.fields.start)
    (inside : r.fields.stop ≤ b + l)
    (solid : ∀ a k, t.Places a k → r.fields.start ≤ a → a < r.fields.stop → 0 < k) : r.Homes t cells := by
  intro c member spans a k places start holds_
  obtain ⟨first, last⟩ := spans
  by_cases empty : c.size = 0
  · omega
  · have nonempty := solid a k places
    obtain rfl : a = b := apart a k b l c.address places holds start (by omega) (by omega) (by omega)
    obtain rfl := places.size_eq holds
    omega

theorem Ready.homes_of_code (ready : r.Ready m t cells) (apart : t.Apart) {f : FuncId}
    (code : t.get? r.fields.start = some (.func f)) : r.Homes t cells := by
  cases ready.sits with
  | code g _ stay =>
    intro c member spans a k places below holds
    have solid := ready.solid a k places
    have same := stay c member spans a k places below
    obtain ⟨first, last⟩ := spans
    by_cases empty : c.size = 0
    · omega
    · exact same (by omega)
  | within a k places below inside => exact homes_of_within apart places below inside ready.solid
  | alone clear =>
    intro c member spans a k places below holds
    have solid := ready.solid a k places
    obtain ⟨first, last⟩ := spans
    by_cases empty : c.size = 0
    · omega
    · -- A variable that holds the cell would start where the function lies.
      obtain rfl := clear a k c.address places below (by omega) first (by omega)
      obtain ⟨id, found⟩ := places
      cases code.symm.trans (EntityTable.get?_eq_some.mpr ⟨k, found⟩)

/-! ### Tables through runs -/

theorem declareAll_exist (runs : List Run) (exist : t.Exists m) :
    m.SameCode (declareAll runs m t).1 ∧ (declareAll runs m t).2.1.Exists (declareAll runs m t).1 ∧
      (t.Bounded → (declareAll runs m t).2.1.Bounded) := by
  induction runs generalizing m t with
  | nil => exact ⟨.refl m, exist, fun bounded => bounded⟩
  | cons r rs ih =>
    have code : (declareAll (r :: rs) m t).1 = (declareAll rs (r.declare m t).1 (r.declare m t).2.1).1 := rfl
    have next : (declareAll (r :: rs) m t).2.1 = (declareAll rs (r.declare m t).1 (r.declare m t).2.1).2.1 := rfl
    rw [code, next]
    rcases (r.declares m t).takes exist with ⟨same, table, -⟩ | ⟨id, takes⟩
    · rw [same, table]
      exact ih exist
    · obtain ⟨same, exist', bounded'⟩ := ih (takes.exist exist)
      exact ⟨takes.same.trans same, exist', fun bounded => bounded' (takes.bounded bounded)⟩

/-- A table whose variables have no byte in common, in a program that has its entities. -/
structure Parted (m : Module) (t : EntityTable) : Prop where
  exist : t.Exists m
  once : t.Once
  apart : t.Apart
  bounded : t.Bounded

/-- A run that is ready gets its variable, and all others stay as they are. -/
theorem declare_parted (parted : Parted m t) (room : r.fields.start ≤ r.fields.stop ∧ r.fields.stop ≤ maxAddress)
    (ready : r.Ready m t cells) :
    m.SameCode (r.declare m t).1 ∧ Parted (r.declare m t).1 (r.declare m t).2.1 ∧
      r.Homes (r.declare m t).2.1 cells ∧
      (∀ q : Run, r.fields.stop < q.fields.start → q.Ready m t cells →
        q.Ready (r.declare m t).1 (r.declare m t).2.1 cells) ∧
      ∀ q : Run, q.fields.stop < r.fields.start → q.Homes t cells → q.Homes (r.declare m t).2.1 cells := by
  obtain ⟨exist, once, apart, bounded⟩ := parted
  rcases declare_cases exist ready.recorded with ⟨same, table, ⟨f, code⟩ | ⟨a, k, places, below, inside⟩⟩ | ⟨id, takes⟩
  · rw [same, table]
    exact ⟨.refl m, ⟨exist, once, apart, bounded⟩, ready.homes_of_code apart code, fun _ _ => id, fun _ _ => id⟩
  · rw [same, table]
    exact ⟨.refl m, ⟨exist, once, apart, bounded⟩, homes_of_within apart places below inside ready.solid,
      fun _ _ => id, fun _ _ => id⟩
  · have still := takes.apart apart bounded ready room.2
    have self : (r.declare m t).2.1.Places r.fields.start r.size := takes.places.mpr (by rw [if_pos rfl])
    refine ⟨takes.same, ⟨takes.exist exist, takes.once exist once, still, takes.bounded bounded⟩, ?_,
      fun q behind => takes.ready exist once apart room.1 behind, fun q before => takes.homes before⟩
    refine homes_of_within still self (Nat.le_refl _) ?_ fun a k places start stop => ?_
    · unfold size
      omega
    · rw [takes.places] at places
      unfold size at places
      split at places
      next => omega
      next => exact ready.solid a k places start stop

theorem declareAll_parted (runs : List Run) (parted : Parted m t) (ordered : Ordered runs)
    (ready : ∀ r ∈ runs, r.Ready m t cells) :
    m.SameCode (declareAll runs m t).1 ∧ Parted (declareAll runs m t).1 (declareAll runs m t).2.1 ∧
      (∀ r ∈ runs, r.Homes (declareAll runs m t).2.1 cells) ∧
      ∀ q : Run, (∀ r ∈ runs, q.fields.stop < r.fields.start) → q.Homes t cells →
        q.Homes (declareAll runs m t).2.1 cells := by
  induction runs generalizing m t with
  | nil => exact ⟨.refl m, parted, nofun, fun _ _ homes => homes⟩
  | cons r rs ih =>
    obtain ⟨gap, apart⟩ := List.pairwise_cons.mp ordered.apart
    obtain ⟨whole, rest⟩ := List.forall_mem_cons.mp ordered.whole
    obtain ⟨first, others⟩ := List.forall_mem_cons.mp ready
    obtain ⟨same, parted', homes, later, earlier⟩ := declare_parted parted whole first
    obtain ⟨same', final, following, kept⟩ := ih parted' ⟨apart, rest⟩ fun q member =>
      later q (gap q member) (others q member)
    refine ⟨same.trans same', final, List.forall_mem_cons.mpr ⟨kept r gap homes, following⟩, fun q before here => ?_⟩
    obtain ⟨left, right⟩ := List.forall_mem_cons.mp before
    exact kept q right (earlier q left here)

end Run

end VarRecovery
