import VarRecovery.Proofs.Calling.Binding

/-!
How a convention returns a value: all its pieces in registers, each in the first slot that takes it and is free, or all of
it in memory. Only a struct is returned in memory, and the caller passes its address.
-/

set_option autoImplicit false

namespace VarRecovery

namespace RegisterSlot

variable {s : RegisterSlot} {slots : List RegisterSlot} {L : DataLayout} {what : ValueClass}
  {taken ks : List Nat} {tys : List Ty} {values : List ValueDecl}

/-- Values take slots by first fit, beside slots that are taken already. -/
inductive Fills (slots : List RegisterSlot) (L : DataLayout) :
    List Nat → List Ty → List Nat → List ValueDecl → Prop
  | nil {taken : List Nat} : Fills slots L taken [] [] []
  | cons {taken ks : List Nat} {k : Nat} {s : RegisterSlot} {what : ValueClass} {name : RegisterVariant} {ty : Ty}
      {tys : List Ty} {values : List ValueDecl} (slot : slots[k]? = some s) (class_eq : ValueClass.ofTy? L ty = some what)
      (first : s.IsFirst what name) (free : k ∉ taken)
      (before : ∀ j u, slots[j]? = some u → u.Accepts what → j < k → j ∈ taken)
      (rest : Fills slots L (k :: taken) tys ks values) :
      Fills slots L taken (ty :: tys) (k :: ks) (.inRegister name.register ty :: values)

theorem Fills.distinct (fills : Fills slots L taken tys ks values) : ks.Nodup ∧ ∀ k ∈ ks, k ∉ taken := by
  induction fills with
  | nil => exact ⟨.nil, nofun⟩
  | cons slot class_eq first free before rest ih =>
    obtain ⟨nodup, apart⟩ := ih
    refine ⟨List.nodup_cons.mpr ⟨fun again => ?_, nodup⟩, List.forall_mem_cons.mpr ⟨free, fun k member inside => ?_⟩⟩
    · exact apart _ again List.mem_cons_self
    · exact apart k member (List.mem_cons_of_mem _ inside)

theorem IsFirst.select? {v : RegisterVariant} (first : s.IsFirst what v) : s.select? what = some v := by
  obtain ⟨before, after, split, others⟩ := first.first
  apply List.find?_eq_some_iff_append.mpr
  refine ⟨RegisterVariant.accepts_iff.mpr first.accepts, before, after, split, fun u member => ?_⟩
  simpa [← RegisterVariant.accepts_iff] using others u member

theorem IsFirst.accepted {v : RegisterVariant} (first : s.IsFirst what v) : s.Accepts what := by
  obtain ⟨before, after, split, -⟩ := first.first
  exact ⟨v, by simp [split], first.accepts⟩

end RegisterSlot

namespace Allocation

variable {a : Allocation} {L : DataLayout} {taken : List Nat} {tys : List Ty} {values : List ValueDecl}

/-- There is one first free slot. -/
theorem allocate?_of_first {k : Nat} {s : RegisterSlot} {what : ValueClass} {name : RegisterVariant}
    (slot : a.slots[k]? = some s) (first : s.IsFirst what name) (free : ¬a.IsTaken k)
    (before : ∀ j u, a.slots[j]? = some u → u.Accepts what → j < k → a.IsTaken j) :
    a.allocate? what = some (name.register, { a with reserved := a.reserved.set k true }) := by
  cases found : a.allocate? what with
  | none => exact absurd (allocate?_none found slot first.accepted) free
  | some result =>
    obtain ⟨register, after⟩ := result
    obtain ⟨j, u, other, slot', first', rfl, free', before', rfl⟩ := allocate?_some found
    -- Of two slots that both are the first, neither is before the other.
    have same : j = k := by
      rcases Nat.lt_trichotomy j k with lower | same | higher
      · exact absurd (before j u slot' first'.accepted lower) free'
      · exact same
      · exact absurd (before' k s slot first.accepted higher) free
    subst same
    cases slot.symm.trans slot'
    cases first.select?.symm.trans first'.select?
    rfl

/-- The slots that were taken are those in a list. -/
structure Takes (a : Allocation) (taken : List Nat) : Prop where
  reserved : a.reserved.length = a.slots.length
  taken : ∀ k, a.IsTaken k ↔ k ∈ taken

theorem takes_start (slots : List RegisterSlot) : (start slots).Takes [] where
  reserved := by simp [start]
  taken k := by simp [not_isTaken_start]

theorem Takes.set (takes : a.Takes taken) {k : Nat} (inside : k < a.slots.length) :
    ({ a with reserved := a.reserved.set k true } : Allocation).Takes (k :: taken) where
  reserved := by simp [takes.reserved]
  taken j := by rw [isTaken_set k j (takes.reserved ▸ inside), takes.taken, List.mem_cons]

theorem bindAll?_eq_some_iff (takes : a.Takes taken) :
    a.bindAll? L tys = some values ↔ ∃ ks, RegisterSlot.Fills a.slots L taken tys ks values := by
  -- Each register handed out is marked as taken for the types behind it.
  induction tys generalizing a taken values with
  | nil =>
    constructor
    · rintro ⟨⟩
      exact ⟨[], .nil⟩
    · rintro ⟨ks, fills⟩
      cases fills
      rfl
  | cons ty tys ih =>
    constructor
    · intro bound
      obtain ⟨what, class_eq, bound⟩ := Option.bind_eq_some_iff.mp bound
      obtain ⟨⟨register, after⟩, found, bound⟩ := Option.bind_eq_some_iff.mp bound
      obtain ⟨rest, others, same⟩ := Option.bind_eq_some_iff.mp bound
      cases same
      obtain ⟨k, s, name, slot, first, rfl, free, before, rfl⟩ := allocate?_some found
      have inside := (List.getElem?_eq_some_iff.mp slot).1
      obtain ⟨ks, fills⟩ := (ih (takes.set inside)).mp others
      refine ⟨k :: ks, .cons slot class_eq first (fun member => free ((takes.taken k).mpr member)) ?_ fills⟩
      intro j u other accepts lower
      exact (takes.taken j).mp (before j u other accepts lower)
    · rintro ⟨_, fills⟩
      cases fills with
      | @cons _ ks k s what name _ _ values slot class_eq first free before rest =>
        have found := allocate?_of_first slot first (fun inside => free ((takes.taken k).mp inside))
          fun j u other accepts lower => (takes.taken j).mpr (before j u other accepts lower)
        have inside := (List.getElem?_eq_some_iff.mp slot).1
        have others := (ih (takes.set inside)).mpr ⟨ks, rest⟩
        simp [bindAll?, class_eq, found, others]

end Allocation

namespace Convention

open RegisterSlot (Fills)

variable {c : Convention} {L : DataLayout} {s : Signature} {names : List (Nat × String)} {address : Nat}
  {decl : FunctionDecl} {ret : ReturnBinding} {ty : Ty} {w : IntWidth} {tys : List Ty} {values : List ValueDecl}

/-! ### Values in registers -/

def Unaccepted (c : Convention) (L : DataLayout) (ty : Ty) : Prop :=
  ∀ what, ValueClass.ofTy? L ty = some what → ∀ u ∈ c.returnRegisters, ¬u.Accepts what

/-- Whether an integer is a multiple of a pointer's width, and more than that. -/
def IsWide (L : DataLayout) (w : IntWidth) : Prop :=
  L.pointerBytes * 8 < w.bits ∧ L.pointerBytes * 8 ∣ w.bits

def words (L : DataLayout) (w : IntWidth) : List Ty :=
  List.replicate (w.bits / (L.pointerBytes * 8)) L.pointerInt

theorem widePieces_of_isWide (wide : IsWide L w) : widePieces L (.int w) = words L w ∧ words L w ≠ [] := by
  obtain ⟨above, multiple⟩ := wide
  refine ⟨?_, fun none_ => ?_⟩
  · simp [widePieces, words, above, Nat.mod_eq_zero_of_dvd multiple]
  · rw [words, List.replicate_eq_nil_iff] at none_
    have whole := Nat.div_mul_cancel multiple
    rw [none_, Nat.zero_mul] at whole
    omega

theorem exists_isWide (some_ : widePieces L ty ≠ []) : ∃ w, ty = .int w ∧ IsWide L w := by
  cases ty with
  | int w =>
    refine ⟨w, rfl, ?_⟩
    by_contra narrow
    apply some_
    have exact_ : ¬(L.pointerBytes * 8 < w.bits ∧ w.bits % (L.pointerBytes * 8) = 0) := by
      rintro ⟨above, whole⟩
      exact narrow ⟨above, Nat.dvd_of_mod_eq_zero whole⟩
    simp [widePieces, exact_]
  | _ => exact absurd rfl some_

theorem bindAll?_start :
    (Allocation.start c.returnRegisters).bindAll? L tys = some values ↔
      ∃ ks, Fills c.returnRegisters L [] tys ks values :=
  Allocation.bindAll?_eq_some_iff (Allocation.takes_start c.returnRegisters)

theorem bindAll?_start_none : (Allocation.start c.returnRegisters).bindAll? L tys = none ↔
    ¬∃ ks values, Fills c.returnRegisters L [] tys ks values := by
  rw [Option.eq_none_iff_forall_ne_some]
  constructor
  · rintro none_ ⟨ks, values, fills⟩
    exact none_ values (bindAll?_start.mpr ⟨ks, fills⟩)
  · rintro none_ values bound
    obtain ⟨ks, fills⟩ := bindAll?_start.mp bound
    exact none_ ⟨ks, values, fills⟩

/-- A value alone finds a slot if any takes it. -/
theorem exists_fills_singleton : (∃ ks values, Fills c.returnRegisters L [] [ty] ks values) ↔ ¬c.Unaccepted L ty := by
  constructor
  · rintro ⟨ks, values, fills⟩ none_
    cases fills with
    | cons slot class_eq first => exact none_ _ class_eq _ (List.mem_of_getElem? slot) first.accepted
  · intro some_
    by_contra unfilled
    apply some_
    intro what class_eq u member accepts
    obtain ⟨k, slot⟩ := List.getElem?_of_mem member
    have none_ := bindAll?_start_none.mpr unfilled
    have stuck : (Allocation.start c.returnRegisters).allocate? what = none := by
      by_contra found
      obtain ⟨⟨register, after⟩, found⟩ := Option.ne_none_iff_exists'.mp found
      simp [Allocation.bindAll?, class_eq, found] at none_
    exact Allocation.not_isTaken_start c.returnRegisters k (Allocation.allocate?_none stuck slot accepts)

/-- The pieces that registers return a value in. A wide integer goes into words if no slot takes it whole. -/
inductive Splits (c : Convention) (L : DataLayout) : Ty → List Ty → Prop
  | nothing : Splits c L .unit []
  | whole {ty : Ty} (scalar : ty.isUnit = false ∧ ty.isStruct = false) : Splits c L ty [ty]
  | words {w : IntWidth} (unaccepted : c.Unaccepted L (.int w)) (wide : IsWide L w) : Splits c L (.int w) (words L w)
  | fields {name : String} {fields pieces : List Ty} {packed : Bool}
      (split : c.structPieces L fields packed = .ok pieces) : Splits c L (.struct name fields packed) pieces

theorem scalarReturn?_some (scalar : ty.isUnit = false ∧ ty.isStruct = false)
    (bound : c.scalarReturn? L ty = some values) :
    ∃ pieces ks, c.Splits L ty pieces ∧ Fills c.returnRegisters L [] pieces ks values := by
  unfold scalarReturn? at bound
  dsimp only at bound
  split at bound
  next found =>
    cases bound
    obtain ⟨ks, fills⟩ := bindAll?_start.mp found
    exact ⟨[ty], ks, .whole scalar, fills⟩
  next unfilled =>
    split at bound
    next => cases bound
    next pieces some_ =>
      obtain ⟨w, rfl, wide⟩ := exists_isWide some_
      have unaccepted : c.Unaccepted L (.int w) := by
        by_contra accepted
        exact bindAll?_start_none.mp unfilled (exists_fills_singleton.mpr accepted)
      rw [(widePieces_of_isWide wide).1] at bound
      obtain ⟨ks, fills⟩ := bindAll?_start.mp bound
      exact ⟨words L w, ks, .words unaccepted wide, fills⟩

theorem scalarReturn?_none_iff : c.scalarReturn? L ty = none ↔ c.Unaccepted L ty ∧
    ¬∃ w ks values, ty = .int w ∧ IsWide L w ∧ Fills c.returnRegisters L [] (words L w) ks values := by
  unfold scalarReturn?
  dsimp only
  split
  next values found =>
    obtain ⟨ks, fills⟩ := bindAll?_start.mp found
    have accepted := exists_fills_singleton.mp ⟨ks, values, fills⟩
    simp [accepted]
  next unfilled =>
    have unaccepted : c.Unaccepted L ty := by
      by_contra accepted
      exact bindAll?_start_none.mp unfilled (exists_fills_singleton.mpr accepted)
    rw [and_iff_right unaccepted]
    split
    next none_ =>
      simp only [true_iff]
      rintro ⟨w, ks, values, rfl, wide, -⟩
      obtain ⟨same, some_⟩ := widePieces_of_isWide wide
      exact some_ (same.symm.trans none_)
    next some_ =>
      obtain ⟨w, rfl, wide⟩ := exists_isWide some_
      rw [(widePieces_of_isWide wide).1, bindAll?_start_none]
      simp [wide]

/-! ### Where a value is returned -/

theorem unit_or_struct_or_scalar (ty : Ty) : ty = .unit ∨ (∃ name fields packed, ty = .struct name fields packed) ∨
    (ty.isUnit = false ∧ ty.isStruct = false) := by
  cases ty <;> simp [Ty.isUnit, Ty.isStruct]

theorem placeReturn_unit (direct : s.structRet = none) (unit : s.ret = .unit) :
    c.placeReturn L s = .ok (.registers []) := by
  rw [placeReturn, direct, unit]
  rfl

theorem placeReturn_struct {name : String} {fields : List Ty} {packed : Bool} (direct : s.structRet = none)
    (struct : s.ret = .struct name fields packed) : c.placeReturn L s = do
      let pieces ← c.structPieces L fields packed
      match (Allocation.start c.returnRegisters).bindAll? L pieces with
      | some values => return .registers values
      | none => return .slot s.ret := by
  rw [placeReturn, direct, struct]
  rfl

theorem placeReturn_scalar (direct : s.structRet = none) (scalar : s.ret.isUnit = false ∧ s.ret.isStruct = false) :
    c.placeReturn L s =
      match c.scalarReturn? L s.ret with
      | some values => .ok (.registers values)
      | none => .error (.unsupportedReturn s.name s.ret.shown c.name) := by
  rw [placeReturn, direct]
  obtain ⟨noUnit, noStruct⟩ := scalar
  cases ty : s.ret <;> rw [ty] at noUnit noStruct
  case unit => cases noUnit
  case struct => cases noStruct
  all_goals rfl

theorem placeReturn_ok (direct : s.structRet = none) (placed : c.placeReturn L s = .ok ret) :
    (∃ pieces ks values, c.Splits L s.ret pieces ∧ Fills c.returnRegisters L [] pieces ks values ∧
      ret = .registers values) ∨
    ∃ name fields packed pieces, s.ret = .struct name fields packed ∧ c.structPieces L fields packed = .ok pieces ∧
      (¬∃ ks values, Fills c.returnRegisters L [] pieces ks values) ∧ ret = .slot s.ret := by
  rcases unit_or_struct_or_scalar s.ret with unit | ⟨name, fields, packed, struct⟩ | scalar
  · rw [placeReturn_unit direct unit] at placed
    cases placed
    exact .inl ⟨[], [], [], unit ▸ .nothing, .nil, rfl⟩
  · rw [placeReturn_struct direct struct] at placed
    obtain ⟨pieces, split, placed⟩ := Recovering.bind_eq_ok placed
    split at placed
    next values found =>
      cases placed
      obtain ⟨ks, fills⟩ := bindAll?_start.mp found
      exact .inl ⟨pieces, ks, values, struct ▸ .fields split, fills, rfl⟩
    next unfilled =>
      cases placed
      exact .inr ⟨name, fields, packed, pieces, struct, split, bindAll?_start_none.mp unfilled, rfl⟩
  · rw [placeReturn_scalar direct scalar] at placed
    split at placed
    next values found =>
      cases placed
      obtain ⟨pieces, ks, split, fills⟩ := scalarReturn?_some scalar found
      exact .inl ⟨pieces, ks, values, split, fills, rfl⟩
    next => cases placed

theorem structPieces_error {fields : List Ty} {packed : Bool} {e : BindError}
    (failed : c.structPieces L fields packed = .error e) : e = .unsized := by
  unfold structPieces at failed
  split at failed
  next => split at failed <;> cases failed; rfl
  next => cases failed

theorem placeReturn_struct_error {name : String} {fields : List Ty} {packed : Bool} {e : BindError}
    (direct : s.structRet = none) (struct : s.ret = .struct name fields packed) (failed : c.placeReturn L s = .error e) :
    e = .unsized := by
  rw [placeReturn_struct direct struct] at failed
  rcases Recovering.bind_eq_error failed with unsplit | ⟨pieces, -, placed⟩
  · exact structPieces_error unsplit
  · split at placed <;> cases placed

/-- What cannot be returned, and what is said of it. -/
theorem placeReturn_unsupported_iff (direct : s.structRet = none) {func shown convention : String} :
    c.placeReturn L s = .error (.unsupportedReturn func shown convention) ↔
      (func = s.name ∧ shown = s.ret.shown ∧ convention = c.name) ∧ (s.ret.isUnit = false ∧ s.ret.isStruct = false) ∧
        c.Unaccepted L s.ret ∧
        ¬∃ w ks values, s.ret = .int w ∧ IsWide L w ∧ Fills c.returnRegisters L [] (words L w) ks values := by
  rcases unit_or_struct_or_scalar s.ret with unit | ⟨name, fields, packed, struct⟩ | scalar
  · simp [placeReturn_unit direct unit, unit, Ty.isUnit]
  · have other : c.placeReturn L s ≠ .error (.unsupportedReturn func shown convention) := by
      intro failed
      cases placeReturn_struct_error direct struct failed
    simp [other, struct, Ty.isStruct]
  · rw [placeReturn_scalar direct scalar, ← scalarReturn?_none_iff]
    cases c.scalarReturn? L s.ret with
    | some values => simp
    | none => simp [scalar, eq_comm]

/-! ### Bound signatures -/

theorem bindParams_error {a : Allocation} {offset : Int} {params : List (String × Ty)} {e : BindError}
    (failed : c.bindParams L a offset params = .error e) : e = .unsized := by
  induction params generalizing a offset with
  | nil => cases failed
  | cons param params ih =>
    obtain ⟨name, ty⟩ := param
    rw [bindParams] at failed
    split at failed
    next =>
      rcases Recovering.bind_eq_error failed with behind | ⟨rest, -, bound⟩
      · exact ih behind
      · cases bound
    next =>
      split at failed
      next => cases failed; rfl
      next =>
        rcases Recovering.bind_eq_error failed with behind | ⟨rest, -, bound⟩
        · exact ih behind
        · cases bound

theorem bindParams_named {a : Allocation} {offset : Int} {params : List (String × Ty)} {decls : List ParameterDecl}
    (bound : c.bindParams L a offset params = .ok decls) : (decls.map fun p => (p.name, p.value.ty)) = params := by
  induction params generalizing a offset decls with
  | nil =>
    cases bound
    rfl
  | cons param params ih =>
    obtain ⟨name, ty⟩ := param
    obtain ⟨v, after, offset', rest, first, behind, rfl⟩ := bindParams_cons_ok bound
    have same : v.ty = ty := by
      unfold place at first
      split at first
      next => cases first; rfl
      next => split at first <;> cases first; rfl
    simp [same, ih behind]

/-- How many bytes a return takes off the stack beside the return address. -/
def popped (c : Convention) (L : DataLayout) (ret : ReturnBinding) : Nat :=
  if ret.isHidden ∧ c.calleePopsStructReturn then L.pointerBytes else 0

theorem returns_of_bind (placed : c.placeReturn L s = .ok ret) (bound : (c.bind L s names address).1 = .ok decl) :
    decl.returns = ret.values c ∧
      decl.returnStackPointerOffset = Word.wrapSigned (c.returnStackPointerOffset + c.popped L ret) := by
  rw [bind, placed] at bound
  obtain ⟨params, -, same⟩ := Recovering.bind_eq_ok bound
  cases same
  exact ⟨rfl, rfl⟩

theorem bind_unsupported_iff {func shown convention : String} :
    (c.bind L s names address).1 = .error (.unsupportedReturn func shown convention) ↔
      c.placeReturn L s = .error (.unsupportedReturn func shown convention) := by
  unfold bind
  cases placed : c.placeReturn L s with
  | error e => simp
  | ok ret =>
    simp only [reduceCtorEq, iff_false]
    intro failed
    rw [bindAllParams_eq placed] at failed
    rcases Recovering.bind_eq_error failed with params | ⟨decls, -, bound⟩
    · cases bindParams_error params
    · cases bound

/-- All pieces of a value are returned in registers, or a struct is returned in memory. Each argument has one parameter,
and a struct in memory has a slot in front of them, whose address is returned. -/
inductive Returns (c : Convention) (L : DataLayout) (s : Signature) (names : List (Nat × String))
    (decl : FunctionDecl) : Prop
  | inRegisters {pieces : List Ty} {ks : List Nat} (split : c.Splits L s.ret pieces)
      (filled : Fills c.returnRegisters L [] pieces ks decl.returns) (distinct : ks.Nodup)
      (params : (decl.params.map fun p => (p.name, p.value.ty)) = s.namedArgs names)
      (offset : decl.returnStackPointerOffset = c.returnStackPointerOffset) : Returns c L s names decl
  | inMemory {name : String} {fields pieces : List Ty} {packed : Bool} {rest : List ParameterDecl}
      (struct : s.ret = .struct name fields packed) (split : c.structPieces L fields packed = .ok pieces)
      (unfilled : ¬∃ ks values, Fills c.returnRegisters L [] pieces ks values)
      (returns : decl.returns = [.inRegister c.structReturnRegister (.ptr s.ret)])
      (slot : decl.params = ⟨"return_slot", .inMemory c.stackPointer c.stackBaseOffset s.ret⟩ :: rest)
      (params : (rest.map fun p => (p.name, p.value.ty)) = s.namedArgs names)
      (offset : decl.returnStackPointerOffset = Word.wrapSigned (c.returnStackPointerOffset + c.popped L (.slot s.ret)))
      (exceeds : decl.returnStackPointerOffset = c.returnStackPointerOffset + c.popped L (.slot s.ret) ↔
        c.returnStackPointerOffset + c.popped L (.slot s.ret) < 0x8000000000000000) : Returns c L s names decl

theorem returns_inMemory {name : String} {fields pieces : List Ty} {packed : Bool}
    (word : Word.IsSigned c.returnStackPointerOffset) (struct : s.ret = .struct name fields packed)
    (split : c.structPieces L fields packed = .ok pieces)
    (unfilled : ¬∃ ks values, Fills c.returnRegisters L [] pieces ks values) (placed : c.placeReturn L s = .ok (.slot s.ret))
    (bound : (c.bind L s names address).1 = .ok decl) : c.Returns L s names decl := by
  obtain ⟨returns, offset⟩ := returns_of_bind placed bound
  obtain ⟨ret, placed', params⟩ := bind_ok bound
  cases placed.symm.trans placed'
  obtain ⟨v, after, next, rest, first, behind, all⟩ := bindParams_cons_ok params
  rw [struct] at first
  obtain rfl := place_struct first
  rw [← struct] at all
  apply Returns.inMemory struct split unfilled returns all (bindParams_named behind) offset
  rw [offset, Word.wrapSigned_eq_iff]
  have low := word.1
  exact ⟨fun whole => whole.2, fun below => ⟨by omega, below⟩⟩

/-- The integer fits into no register of 32 bits, so two of them return its words. -/
def wideReturn : Signature where
  name := "f"
  linkage := .exported
  args := [.int .i32]
  ret := .int .i64
  structRet := none
  isVariadic := false
  isNoreturn := false

/-- A return that moves the stack pointer as far as a word can tell, and then takes an address off the stack. -/
def farReturn : Convention where
  name := "test"
  stackPointer := "SP"
  paramRegisters := []
  returnRegisters := []
  structReturnRegister := "R0"
  stackBaseOffset := 8
  returnStackPointerOffset := 9223372036854775807
  calleePopsStructReturn := true
  coalesceStructFields := false
  redzone := 0

end Convention

end VarRecovery
