import Mathlib
import VarRecovery.Ty.Arena

/-!
What the compounds of an arena stand for. Each refers to earlier ones only, so a handle stands for one type, and as
each compound is there once, no other handle stands for that type. Compounds are added, and none is changed.
-/

set_option autoImplicit false

namespace VarRecovery

namespace Handle

def IsIn (h : Handle) (a : Arena) : Prop :=
  ∀ place, h = .compound place → place < a.compounds.size

/-- The type of a handle, if those of the compounds are known. -/
def ty (tys : List Ty) : Handle → Ty
  | .int w => .int w
  | .float w => .float w
  | .unit => .unit
  | .compound place => tys.getD place .unit

end Handle

namespace Compound

variable {c d : Compound} {of into : Handle → Ty}

def parts : Compound → List Handle
  | .ptr ty | .array ty _ | .vector ty _ => [ty]
  | .struct _ fields _ => fields
  | .func args ret => args ++ [ret]

def name? : Compound → Option String
  | .struct name _ _ => some name
  | _ => none

theorem name?_eq_some {name : String} : c.name? = some name ↔ ∃ fields packed, c = .struct name fields packed := by
  cases c <;> simp [name?]

/-- The type of a compound, if those of its parts are known. -/
def ty (of : Handle → Ty) : Compound → Ty
  | .ptr pointee => .ptr (of pointee)
  | .array elem len => .array (of elem) len
  | .vector elem len => .vector (of elem) len
  | .struct name fields packed => .struct name (fields.map of) packed
  | .func args ret => .func (args.map of) (of ret)

theorem ty_congr (same : ∀ part ∈ c.parts, of part = into part) : c.ty of = c.ty into := by
  cases c with
  | ptr | array | vector => simp [ty, same _ (List.mem_singleton_self _)]
  | struct name fields packed => rw [ty, ty, List.map_congr_left (l := fields) same]
  | func args ret =>
    obtain ⟨args, ret⟩ := List.forall_mem_append.mp same
    rw [ty, ty, List.map_congr_left args, ret _ (List.mem_singleton_self _)]

theorem eq_of_map {xs ys : List Handle} (apart : ∀ x ∈ xs, ∀ y ∈ ys, of x = of y → x = y)
    (same : xs.map of = ys.map of) : xs = ys := by
  induction xs generalizing ys with
  | nil =>
    cases ys with
    | nil => rfl
    | cons => simp at same
  | cons x xs ih =>
    cases ys with
    | nil => simp at same
    | cons y ys =>
      rw [List.map_cons, List.map_cons, List.cons.injEq] at same
      rw [apart x (by simp) y (by simp) same.1,
        ih (fun x there y here => apart x (by simp [there]) y (by simp [here])) same.2]

/-- Compounds with the same type are equal if their parts are, as soon as those have the same types. -/
theorem eq_of_ty (apart : ∀ x ∈ c.parts, ∀ y ∈ d.parts, of x = of y → x = y) (same : c.ty of = d.ty of) : c = d := by
  cases c with
  | ptr x =>
    cases d with
    | ptr y =>
      rw [ty, ty, Ty.ptr.injEq] at same
      rw [apart x (by simp [parts]) y (by simp [parts]) same]
    | _ => cases same
  | array x m =>
    cases d with
    | array y n =>
      rw [ty, ty, Ty.array.injEq] at same
      rw [apart x (by simp [parts]) y (by simp [parts]) same.1, same.2]
    | _ => cases same
  | vector x m =>
    cases d with
    | vector y n =>
      rw [ty, ty, Ty.vector.injEq] at same
      rw [apart x (by simp [parts]) y (by simp [parts]) same.1, same.2]
    | _ => cases same
  | struct name xs packed =>
    cases d with
    | struct other ys packed' =>
      rw [ty, ty, Ty.struct.injEq] at same
      rw [same.1, same.2.2, eq_of_map (show ∀ x ∈ xs, ∀ y ∈ ys, of x = of y → x = y from apart) same.2.1]
    | _ => cases same
  | func xs x =>
    cases d with
    | func ys y =>
      rw [ty, ty, Ty.func.injEq] at same
      rw [apart x (by simp [parts]) y (by simp [parts]) same.2,
        eq_of_map (fun x there y here => apart x (by simp [parts, there]) y (by simp [parts, here])) same.1]
    | _ => cases same

end Compound

namespace Arena

variable {a b c : Arena} {h other : Handle} {d : Compound} {place : Nat} {name : String}

/-- The types of compounds, each made from those of the compounds before it. -/
def tysOf (cs : List Compound) : List Ty :=
  cs.foldl (fun tys c => tys ++ [c.ty (Handle.ty tys)]) []

/-- The type that a handle stands for. -/
def ty (a : Arena) (h : Handle) : Ty :=
  h.ty (tysOf a.compounds.toList)

theorem tysOf_concat (cs : List Compound) (d : Compound) :
    tysOf (cs ++ [d]) = tysOf cs ++ [d.ty (Handle.ty (tysOf cs))] := by
  simp [tysOf, List.foldl_append]

theorem length_tysOf (cs : List Compound) : (tysOf cs).length = cs.length := by
  induction cs using List.reverseRecOn with
  | nil => rfl
  | append_singleton cs d ih => simp [tysOf_concat, ih]

theorem tysOf_prefix (cs more : List Compound) : tysOf cs <+: tysOf (cs ++ more) := by
  induction more using List.reverseRecOn with
  | nil => simp
  | append_singleton more d ih =>
    rw [← List.append_assoc, tysOf_concat]
    exact ih.trans (List.prefix_append _ _)

/-- Handles and names are in step with the compounds. -/
structure Valid (a : Arena) : Prop where
  down : ∀ place (c : Compound), a.compounds[place]? = some c →
    ∀ part ∈ c.parts, ∀ other, part = .compound other → other < place
  placed : ∀ c place, a.places.lookup c = some place ↔ a.compounds[place]? = some c
  named : ∀ name place, a.structs.lookup name = some place ↔
    ∃ fields packed, a.compounds[place]? = some (Compound.struct name fields packed)
  listed : ∀ entry ∈ a.structs, ∃ fields packed, a.compounds[entry.2]? = some (Compound.struct entry.1 fields packed)

/-- All compounds stay in their places. -/
def Extends (a b : Arena) : Prop :=
  ∀ (place : Nat) (c : Compound), a.compounds[place]? = some c → b.compounds[place]? = some c

theorem Extends.refl (a : Arena) : a.Extends a :=
  fun _ _ => id

theorem Extends.trans (first : a.Extends b) (next : b.Extends c) : a.Extends c :=
  fun place d found => next place d (first place d found)

theorem Extends.isIn (grown : a.Extends b) (within : h.IsIn a) : h.IsIn b := by
  rintro place rfl
  have found := Array.getElem?_eq_getElem (within place rfl)
  exact (Array.getElem?_eq_some_iff.mp (grown _ _ found)).1

theorem isIn_of_found (found : a.compounds[place]? = some d) : (Handle.compound place).IsIn a := by
  rintro _ ⟨⟩
  exact (Array.getElem?_eq_some_iff.mp found).1

theorem Valid.isIn_parts (valid : a.Valid) (found : a.compounds[place]? = some d) (part : Handle)
    (member : part ∈ d.parts) : part.IsIn a := by
  rintro other rfl
  have lower := valid.down place d found _ member other rfl
  have bound := (Array.getElem?_eq_some_iff.mp found).1
  omega

/-- A handle stands for what its compound says, with the types of the parts in it. -/
theorem Valid.ty_compound (valid : a.Valid) (found : a.compounds[place]? = some d) :
    a.ty (.compound place) = d.ty a.ty := by
  have listed : a.compounds.toList[place]? = some d := by rw [Array.getElem?_toList, found]
  obtain ⟨bound, here⟩ := List.getElem?_eq_some_iff.mp listed
  have split : a.compounds.toList = a.compounds.toList.take place ++ [d] ++ a.compounds.toList.drop (place + 1) := by
    rw [← here, List.take_append_getElem, List.take_append_drop]
  obtain ⟨later, all⟩ : tysOf (a.compounds.toList.take place ++ [d]) <+: tysOf a.compounds.toList := by
    conv => rhs; rw [split]
    exact tysOf_prefix _ _
  rw [tysOf_concat] at all
  have length : (tysOf (a.compounds.toList.take place)).length = place := by
    rw [length_tysOf, List.length_take]
    omega
  -- The parts lie before the compound, so their types are known when its type is made.
  have known (part : Handle) (member : part ∈ d.parts) :
      part.ty (tysOf (a.compounds.toList.take place)) = a.ty part := by
    cases part with
    | compound other =>
      have lower := valid.down place d found _ member other rfl
      rw [ty, ← all]
      simp only [Handle.ty, List.getD_eq_getElem?_getD]
      rw [List.getElem?_append_left (by simp [length]; omega), List.getElem?_append_left (by omega)]
    | _ => rfl
  rw [← Compound.ty_congr known, ty, ← all, Handle.ty, List.getD_eq_getElem?_getD,
    List.getElem?_append_left (by simp [length]), List.getElem?_append_right (by omega), length, Nat.sub_self]
  rfl

/-- What holds of a compound whenever it holds of the handles in it holds of all handles of an arena. -/
theorem Valid.induct (valid : a.Valid) {P : Handle → Prop} (scalar : ∀ h, (∀ place, h ≠ .compound place) → P h)
    (step : ∀ place (d : Compound), a.compounds[place]? = some d → (∀ part ∈ d.parts, P part) → P (.compound place))
    (within : h.IsIn a) : P h := by
  have all (place : Nat) : ∀ d, a.compounds[place]? = some d → P (.compound place) := by
    induction place using Nat.strongRecOn with
    | ind place ih =>
      intro d found
      refine step place d found fun part member => ?_
      cases part with
      | compound other =>
        have inner := valid.isIn_parts found _ member
        exact ih other (valid.down place d found _ member other rfl) _ (Array.getElem?_eq_getElem (inner other rfl))
      | _ => exact scalar _ nofun
  cases h with
  | compound place => exact all place _ (Array.getElem?_eq_getElem (within place rfl))
  | _ => exact scalar _ nofun

/-- Handles keep their types when compounds are added. -/
theorem Extends.ty_eq (grown : a.Extends b) (valid : a.Valid) (next : b.Valid) (within : h.IsIn a) :
    b.ty h = a.ty h := by
  refine valid.induct (P := fun h => b.ty h = a.ty h) (fun h scalar => ?_) (fun place d found same => ?_) within
  · cases h with
    | compound place => exact absurd rfl (scalar place)
    | _ => rfl
  · rw [next.ty_compound (grown place d found), valid.ty_compound found]
    exact Compound.ty_congr same

/-- Handles of one type are equal. -/
theorem Valid.ty_injective (valid : a.Valid) (within : h.IsIn a) (inside : other.IsIn a)
    (same : a.ty h = a.ty other) : h = other := by
  revert other
  refine valid.induct (P := fun h => ∀ {other : Handle}, other.IsIn a → a.ty h = a.ty other → h = other)
    (fun h scalar other inside same => ?_) (fun place d found ih other inside same => ?_) within
  · cases h with
    | compound place => exact absurd rfl (scalar place)
    | _ =>
      cases other with
      | compound place' =>
        obtain ⟨d, found⟩ : ∃ d, a.compounds[place']? = some d :=
          ⟨_, Array.getElem?_eq_getElem (inside place' rfl)⟩
        rw [valid.ty_compound found] at same
        cases d <;> cases same
      | _ => first | cases same; rfl | cases same
  · cases other with
    | compound place' =>
      have here := Array.getElem?_eq_getElem (inside place' rfl)
      rw [valid.ty_compound found, valid.ty_compound here] at same
      have equal := Compound.eq_of_ty (fun x there y behind eq =>
        ih x there (valid.isIn_parts here y behind) eq) same
      subst equal
      have twice := ((valid.placed _ place).mpr found).symm.trans ((valid.placed _ place').mpr here)
      rw [Option.some.inj twice]
    | _ =>
      rw [valid.ty_compound found] at same
      cases d <;> cases same

theorem Valid.eq_iff_map_ty {xs ys : List Handle} (valid : a.Valid) (within : ∀ x ∈ xs, x.IsIn a)
    (inside : ∀ y ∈ ys, y.IsIn a) : xs = ys ↔ xs.map a.ty = ys.map a.ty :=
  ⟨congrArg _, Compound.eq_of_map fun x there y here => valid.ty_injective (within x there) (inside y here)⟩

/-- Places a compound. -/
def add (a : Arena) (d : Compound) : Arena where
  compounds := a.compounds.push d
  places := (d, a.compounds.size) :: a.places
  structs := a.structs ++ (d.name?.map (·, a.compounds.size)).toList

theorem extends_add (a : Arena) (d : Compound) : a.Extends (a.add d) := by
  intro place e found
  have bound := (Array.getElem?_eq_some_iff.mp found).1
  rw [add, Array.getElem?_push_lt bound, ← Array.getElem?_eq_getElem bound, found]

theorem found_add (a : Arena) (d : Compound) : (a.add d).compounds[a.compounds.size]? = some d :=
  Array.getElem?_push_size

theorem found_of_add {e : Compound} (found : (a.add d).compounds[place]? = some e) :
    a.compounds[place]? = some e ∨ place = a.compounds.size ∧ e = d := by
  rw [add, Array.getElem?_push] at found
  split at found
  next same => exact .inr ⟨same, (Option.some.inj found).symm⟩
  next => exact .inl found

/-- The name of a compound, if it has one, is not in use. -/
def FreeFor (a : Arena) (d : Compound) : Prop :=
  ∀ name, d.name? = some name → a.structs.lookup name = none

theorem lookup_add (free : a.FreeFor d) :
    (a.add d).structs.lookup name = some place ↔
      a.structs.lookup name = some place ∨ d.name? = some name ∧ place = a.compounds.size := by
  rw [add, List.lookup_append]
  cases named : d.name? with
  | none => simp
  | some other =>
    by_cases same : other = name
    · subst same
      simp [free other named, eq_comm]
    · have differs : (name == other) = false := by simpa using Ne.symm same
      simp [List.lookup, differs, same]

theorem Valid.add (valid : a.Valid) (within : ∀ part ∈ d.parts, part.IsIn a) (absent : a.places.lookup d = none)
    (free : a.FreeFor d) : (a.add d).Valid where
  down place e found part member other eq := by
    rcases found_of_add found with old | ⟨rfl, rfl⟩
    · exact valid.down place e old part member other eq
    · exact within part member other eq
  placed e place := by
    rw [Arena.add, List.lookup_cons]
    constructor
    · intro looked
      split at looked
      next same =>
        cases eq_of_beq same
        cases Option.some.inj looked
        exact found_add a d
      next => exact extends_add a d place e ((valid.placed e place).mp looked)
    · intro found
      rcases found_of_add found with old | ⟨rfl, rfl⟩
      · have here := (valid.placed e place).mpr old
        have differs : (e == d) = false := by
          rw [beq_eq_false_iff_ne]
          rintro rfl
          rw [absent] at here
          cases here
        rw [differs]
        exact here
      · simp
  named name place := by
    rw [lookup_add free, valid.named]
    constructor
    · rintro (⟨fields, packed, found⟩ | ⟨named, rfl⟩)
      · exact ⟨fields, packed, extends_add a d place _ found⟩
      · obtain ⟨fields, packed, rfl⟩ := Compound.name?_eq_some.mp named
        exact ⟨fields, packed, found_add a _⟩
    · rintro ⟨fields, packed, found⟩
      rcases found_of_add found with old | ⟨rfl, rfl⟩
      · exact .inl ⟨fields, packed, old⟩
      · exact .inr ⟨rfl, rfl⟩
  listed entry member := by
    rcases List.mem_append.mp member with old | new
    · obtain ⟨fields, packed, found⟩ := valid.listed entry old
      exact ⟨fields, packed, extends_add a d entry.2 _ found⟩
    · simp only [Option.mem_toList, Option.map_eq_some_iff] at new
      obtain ⟨name, named, rfl⟩ := new
      obtain ⟨fields, packed, rfl⟩ := Compound.name?_eq_some.mp named
      exact ⟨fields, packed, found_add a _⟩

theorem valid_empty : empty.Valid where
  down _ _ found := by simp [empty] at found
  placed _ _ := by simp [empty]
  named _ _ := by simp [empty]
  listed _ member := by cases member

/-! ### The structs of an arena -/

/-- The struct in a place, with the types of its fields. -/
def structAt? (a : Arena) (place : Nat) : Option StructDef :=
  match a.compounds[place]? with
  | some (.struct name fields packed) => some ⟨name, fields.map a.ty, packed⟩
  | _ => none

def store (a : Arena) : TyStore :=
  ⟨a.structs.filterMap fun entry => a.structAt? entry.2⟩

theorem structAt?_some {fields : List Handle} {packed : Bool}
    (found : a.compounds[place]? = some (.struct name fields packed)) :
    a.structAt? place = some ⟨name, fields.map a.ty, packed⟩ := by
  simp [structAt?, found]

theorem Valid.find?_store (valid : a.Valid) (name : String) :
    a.store.find? name = (a.structs.lookup name).bind a.structAt? := by
  have entries := valid.listed
  rw [store, TyStore.find?]
  generalize a.structs = structs at entries
  induction structs with
  | nil => rfl
  | cons entry structs ih =>
    obtain ⟨here, others⟩ := List.forall_mem_cons.mp entries
    obtain ⟨fields, packed, found⟩ := here
    simp only at ih ⊢
    rw [List.filterMap_cons_some (f := fun entry : String × Nat => a.structAt? entry.2) (structAt?_some found), List.find?_cons,
      ih others, List.lookup_cons]
    by_cases same : entry.1 = name
    · subst same
      simp [structAt?_some found]
    · have differs : (name == entry.1) = false := by simpa using Ne.symm same
      simp [same, differs]

theorem Valid.names_store (valid : a.Valid) : a.store.names = a.names := by
  have entries := valid.listed
  rw [store, TyStore.names, names]
  generalize a.structs = structs at entries
  induction structs with
  | nil => rfl
  | cons entry structs ih =>
    obtain ⟨⟨fields, packed, found⟩, others⟩ := List.forall_mem_cons.mp entries
    simp only at ih ⊢
    rw [List.filterMap_cons_some (f := fun entry : String × Nat => a.structAt? entry.2) (structAt?_some found), List.map_cons,
      List.map_cons, ih others]

theorem Valid.isIn_fields (valid : a.Valid) {fields : List Handle} {packed : Bool}
    (found : a.compounds[place]? = some (.struct name fields packed)) : ∀ field ∈ fields, field.IsIn a :=
  valid.isIn_parts found

/-- Structs keep their definitions when compounds are added. -/
theorem Extends.structAt?_eq (grown : a.Extends b) (valid : a.Valid) (next : b.Valid) {fields : List Handle}
    {packed : Bool} (found : a.compounds[place]? = some (.struct name fields packed)) :
    b.structAt? place = a.structAt? place := by
  rw [structAt?_some found, structAt?_some (grown place _ found)]
  have same : fields.map b.ty = fields.map a.ty :=
    List.map_congr_left fun field member => grown.ty_eq valid next (valid.isIn_fields found field member)
  rw [same]

theorem Extends.stored_eq (grown : a.Extends b) (valid : a.Valid) (next : b.Valid) :
    (a.structs.filterMap fun entry => b.structAt? entry.2) = a.store.structs := by
  refine List.filterMap_congr fun entry member => ?_
  obtain ⟨fields, packed, found⟩ := valid.listed entry member
  exact grown.structAt?_eq valid next found

theorem Valid.store_add (valid : a.Valid) (next : (a.add d).Valid) (unnamed : d.name? = none) :
    (a.add d).store = a.store := by
  have structs : (a.add d).structs = a.structs := by simp [Arena.add, unnamed]
  rw [store, structs, (extends_add a d).stored_eq valid next]

theorem Valid.store_add_struct {fields : List Handle} {packed : Bool} (valid : a.Valid)
    (within : ∀ field ∈ fields, field.IsIn a) (next : (a.add (.struct name fields packed)).Valid) :
    (a.add (.struct name fields packed)).store = a.store.add ⟨name, fields.map a.ty, packed⟩ := by
  have grown := extends_add a (.struct name fields packed)
  have structs : (a.add (.struct name fields packed)).structs = a.structs ++ [(name, a.compounds.size)] := rfl
  have same : fields.map (a.add (.struct name fields packed)).ty = fields.map a.ty :=
    List.map_congr_left fun field member => grown.ty_eq valid next (within field member)
  rw [store, structs, List.filterMap_append, grown.stored_eq valid next, TyStore.add]
  simp [structAt?_some (found_add a _), same]

end Arena

namespace Interning

open Arena

variable {a b : Arena} {d : Compound} {place : Nat}

theorem run_get_bind {α : Type} (f : Arena → Interning α) : (get >>= f : Interning α).run.run a = (f a).run.run a :=
  rfl

theorem make_known (known : a.places.lookup d = some place) : (make d).run.run a = (.ok (.compound place), a) := by
  rw [make, run_get_bind, known]
  rfl

theorem make_absent (absent : a.places.lookup d = none) (free : a.FreeFor d) :
    (make d).run.run a = (.ok (.compound a.compounds.size), a.add d) := by
  rw [make, run_get_bind, absent]
  cases d with
  | struct name fields packed =>
    have unused : (a.structs.lookup name).isSome = false := by rw [free name rfl, Option.isSome_none]
    simp only [unused]
    rfl
  | _ =>
    simp only [Arena.add, Compound.name?, Option.map_none, Option.toList_none, List.append_nil]
    rfl

theorem make_clash (absent : a.places.lookup d = none) (clash : ¬ a.FreeFor d) :
    ∃ r, (make d).run.run a = (.error r, { a with compounds := a.compounds.push d }) := by
  rw [make, run_get_bind, absent]
  cases d with
  | struct name fields packed =>
    have used : (a.structs.lookup name).isSome = true := by
      by_contra unused
      refine clash fun other same => ?_
      cases same
      rwa [Bool.not_eq_true, Option.isSome_eq_false_iff, Option.isNone_iff_eq_none] at unused
    simp only [used]
    exact ⟨_, rfl⟩
  | _ => exact absurd (fun name named => by cases named) clash

/-- The handle of a compound that was made without a clash is its place. -/
theorem make_ok {h : Handle} (valid : a.Valid) (within : ∀ part ∈ d.parts, part.IsIn a)
    (run : (make d).run.run a = (.ok h, b)) :
    b.Valid ∧ a.Extends b ∧ ∃ place, h = .compound place ∧ b.compounds[place]? = some d := by
  cases known : a.places.lookup d with
  | some place =>
    cases (make_known known).symm.trans run
    exact ⟨valid, .refl a, place, rfl, (valid.placed d place).mp known⟩
  | none =>
    by_cases free : a.FreeFor d
    · cases (make_absent known free).symm.trans run
      exact ⟨valid.add within known free, extends_add a d, _, rfl, found_add a d⟩
    · obtain ⟨r, clashed⟩ := make_clash known free
      cases clashed.symm.trans run

end Interning

end VarRecovery
