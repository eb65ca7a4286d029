import VarRecovery.Proofs.Region.Redirection
import VarRecovery.Proofs.Region.Variables

/-!
What integers stand for that are made from the addresses of entities, if each entity lies where a table
places it.
-/

set_option autoImplicit false

namespace VarRecovery

def Value.entity? : Value → Option Entity
  | .global id _ => some (.var id)
  | .func id _ => some (.func id)
  | _ => none

namespace Graph

def entity? (g : Graph) (v : ValueId) : Option Entity :=
  (g.value? v).bind Value.entity?

/-- The number an integer is, if each entity lies where a table places it. -/
inductive Denotes (t : EntityTable) (g : Graph) : ValueId → Imm → Prop
  | imm {v : ValueId} {i : Imm} (found : g.imm? v = some i) : Denotes t g v i
  | address {v ptr : ValueId} {width : IntWidth} {e : Entity} {a : Nat}
      (made : g.defining? v = some (.cast .ptrToInt ptr (.int width))) (pointer : g.entity? ptr = some e)
      (placed : t.get? a = some e) : Denotes t g v (.ofInt width a)
  | add {v lhs rhs : ValueId} {width : IntWidth} {x y : BitVec width.bits}
      (made : g.defining? v = some (.binary .add lhs rhs)) (left : Denotes t g lhs ⟨width, x⟩)
      (right : Denotes t g rhs ⟨width, y⟩) : Denotes t g v ⟨width, x + y⟩

variable {t : EntityTable} {g h : Graph} {v : ValueId} {old : Nat}

theorem Makes.defining? {inst : Inst} (makes : g.Makes old v inst) : g.defining? v = some inst := by
  obtain ⟨i, defined, -, found⟩ := makes
  rw [Graph.defining?, defined]
  exact found

theorem defining?_of_imm? {i : Imm} (found : g.imm? v = some i) : g.defining? v = none := by
  unfold Graph.imm? at found
  split at found
  next known => rw [defining?, definition?, known]; rfl
  next => cases found

theorem Denotes.unique (injective : t.Injective) {i j : Imm} (first : Denotes t g v i)
    (second : Denotes t g v j) : i = j := by
  induction first generalizing j with
  | imm found =>
    cases second with
    | imm again => exact Option.some.inj (found.symm.trans again)
    | address made => cases made.symm.trans (defining?_of_imm? found)
    | add made => cases made.symm.trans (defining?_of_imm? found)
  | address made pointer placed =>
    cases second with
    | imm found => cases made.symm.trans (defining?_of_imm? found)
    | address made' pointer' placed' =>
      cases Option.some.inj (made.symm.trans made')
      cases Option.some.inj (pointer.symm.trans pointer')
      rw [injective _ _ _ placed placed']
    | add made' => cases made.symm.trans made'
  | add made left right ihLeft ihRight =>
    cases second with
    | imm found => cases made.symm.trans (defining?_of_imm? found)
    | address made' => cases made.symm.trans made'
    | add made' left' right' =>
      cases Option.some.inj (made.symm.trans made')
      cases ihLeft left'
      cases ihRight right'
      rfl

theorem Keeps.entity? (keeps : g.Keeps old h) {e : Entity} (found : g.entity? v = some e) :
    h.entity? v = some e := by
  obtain ⟨val, known, same⟩ := Option.bind_eq_some_iff.mp found
  rw [Graph.entity?, keeps.value v val known]
  exact same

end Graph

namespace EntityTable

/-- An entity starts `offset` bytes before an address. It lies there, or it is a variable of more bytes. -/
def Holds (t : EntityTable) (e : Entity) (offset address : Nat) : Prop :=
  ∃ start size, t.entities.find? start = some (e, size) ∧ start + offset = address ∧
    (offset = 0 ∨ offset < size ∧ ∃ id, e = .var id)

variable {t : EntityTable} {m : Module} {e : Entity} {offset a : Nat}

theorem holds_of_get? (found : t.get? a = some e) : t.Holds e 0 a := by
  obtain ⟨size, found⟩ := get?_eq_some.mp found
  exact ⟨a, size, found, rfl, .inl rfl⟩

theorem holds_of_covering? {start : Nat} {id : GlobalId} {size : Nat}
    (covered : t.covering? a = some (start, id, size)) : t.Holds (.var id) (a - start) a := by
  obtain ⟨found, below, inside⟩ := covering?_sound covered
  exact ⟨start, size, found, by omega, .inr ⟨by omega, id, rfl⟩⟩

theorem Exists.keeps (exist : t.Exists m) {old : FuncId → Nat} {n : Module} (keeps : m.Keeps old n) :
    t.Exists n := by
  intro a e found
  have has := exist a e found
  cases e with
  | func f => exact Option.isSome_iff_exists.mp (keeps.func f (Option.isSome_iff_exists.mpr has))
  | var id =>
    obtain ⟨v, known⟩ := has
    exact ⟨v, by rw [Module.global?, keeps.globals]; exact known⟩

theorem Exists.has (exist : t.Exists m) (holds : t.Holds e offset a) : m.Has e := by
  obtain ⟨start, size, found, -⟩ := holds
  exact exist start e (get?_eq_some.mpr ⟨size, found⟩)

end EntityTable

namespace Graph

/-- New instructions made the address of an entity, and of a place in it, an integer. -/
def Locates (old : Nat) (t : EntityTable) (g : Graph) (width : IntWidth) (address : Nat) (v : ValueId) :
    Prop :=
  ∃ e ptr base offset, t.Holds e offset address ∧ g.entity? ptr = some e ∧
    g.Makes old base (.cast .ptrToInt ptr (.int width)) ∧
    (offset = 0 ∧ v = base ∨
      ∃ c, g.imm? c = some (.ofInt width offset) ∧ g.Makes old v (.binary .add base c))

variable {t : EntityTable} {g h : Graph} {v : ValueId} {old : Nat} {width : IntWidth} {address : Nat}

theorem Locates.keeps (locates : Locates old t g width address v) (keeps : g.Keeps old h) :
    Locates old t h width address v := by
  obtain ⟨e, ptr, base, offset, holds, pointer, cast, rest⟩ := locates
  refine ⟨e, ptr, base, offset, holds, keeps.entity? pointer, cast.keeps keeps, rest.imp_right ?_⟩
  rintro ⟨c, constant, sum⟩
  exact ⟨c, keeps.imm? constant, sum.keeps keeps⟩

theorem Locates.imm? (locates : Locates old t g width address v) : g.imm? v = none := by
  obtain ⟨e, ptr, base, offset, -, -, cast, ⟨-, rfl⟩ | ⟨c, -, sum⟩⟩ := locates
  · exact cast.imm?
  · exact sum.imm?

theorem Locates.denotes (locates : Locates old t g width address v) :
    Denotes t g v (.ofInt width address) := by
  obtain ⟨e, ptr, base, offset, ⟨start, size, found, rfl, -⟩, pointer, cast, rest⟩ := locates
  have placed : t.get? start = some e := EntityTable.get?_eq_some.mpr ⟨size, found⟩
  have first : Denotes t g base (.ofInt width start) := .address cast.defining? pointer placed
  rcases rest with ⟨rfl, rfl⟩ | ⟨c, constant, sum⟩
  · exact first
  · have whole := Denotes.add sum.defining? first (.imm constant)
    rwa [← BitVec.ofInt_add] at whole

end Graph

end VarRecovery
