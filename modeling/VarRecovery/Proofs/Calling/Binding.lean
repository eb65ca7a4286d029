import Mathlib
import VarRecovery.Calling.Binding
import VarRecovery.Proofs.Calling.Register
import VarRecovery.Proofs.Recovering

/-!
Where a convention puts the parameters of a function. Those in registers are in different slots, each in the
first free one that takes it, and those in memory lie one behind the other, exactly if none of them begins
beyond the offsets that a word can hold. What follows a parameter does not change where it is.
-/

set_option autoImplicit false

namespace VarRecovery

namespace Word

def IsSigned (n : Int) : Prop :=
  -0x8000000000000000 ≤ n ∧ n < 0x8000000000000000

theorem wrapSigned_eq_iff {n : Int} : wrapSigned n = n ↔ IsSigned n := by
  simp only [wrapSigned, IsSigned, count, Int.bmod_def]
  omega

theorem wrapSigned_add (m n : Int) : wrapSigned (wrapSigned m + n) = wrapSigned (m + n) :=
  Int.bmod_add_bmod ..

end Word

namespace ValueDecl

def offset? (v : ValueDecl) : Option Int :=
  match v.location with
  | .register _ => none
  | .memory _ offset => some offset

def stackSize (L : DataLayout) (v : ValueDecl) : Nat :=
  match v.location with
  | .register _ => 0
  | .memory .. => (L.allocSize? v.ty).getD 0

/-- Whether a value in memory ends where another begins, or before. -/
def EndsBefore (L : DataLayout) (v w : ValueDecl) : Prop :=
  ∀ low high size, v.offset? = some low → w.offset? = some high → L.allocSize? v.ty = some size →
    low + size ≤ high

end ValueDecl

/-- How many bytes of the stack some values take together. -/
def stackBytes (L : DataLayout) (values : List ValueDecl) : Nat :=
  (values.map (·.stackSize L)).sum

def FunctionDecl.paramValues (d : FunctionDecl) : List ValueDecl :=
  d.params.map (·.value)

/-- What is bound in front of the arguments for the returned value. -/
def ReturnBinding.slotParams : ReturnBinding → List (String × Ty)
  | .slot ty => [("return_slot", ty)]
  | _ => []

namespace Convention

variable {c : Convention} {L : DataLayout} {a : Allocation} {offset : Int} {values : List ValueDecl}
  {seats : List (Option Nat)}

/-- The slot that a value is in, or none if it is in memory. It is the first that is not in `earlier` and
takes the value. -/
inductive Seat (c : Convention) (L : DataLayout) (earlier : List (Option Nat)) (v : ValueDecl) :
    Option Nat → Prop
  | register {k : Nat} {s : RegisterSlot} {what : ValueClass} {name : RegisterVariant} :
    c.paramRegisters[k]? = some s → ValueClass.ofTy? L v.ty = some what → s.IsFirst what name →
    v.location = .register name.register → some k ∉ earlier →
    (∀ j u, c.paramRegisters[j]? = some u → u.Accepts what → j < k → some j ∈ earlier) →
    Seat c L earlier v (some k)
  | memory {offset : Int} :
    v.location = .memory c.stackPointer offset →
    (∀ what, ValueClass.ofTy? L v.ty = some what →
      ∀ j u, c.paramRegisters[j]? = some u → u.Accepts what → some j ∈ earlier) →
    Seat c L earlier v none

structure Seats (c : Convention) (L : DataLayout) (values : List ValueDecl) (seats : List (Option Nat)) :
    Prop where
  length_eq : seats.length = values.length
  distinct : seats.reduceOption.Nodup
  each : ∀ i v seat, values[i]? = some v → seats[i]? = some seat → c.Seat L (seats.take i) v seat

/-- Every value in memory has a size, and it is where those before it end, as far as words go. -/
def Stacked (c : Convention) (L : DataLayout) (values : List ValueDecl) : Prop :=
  ∀ i v offset, values[i]? = some v → v.offset? = some offset →
    (L.allocSize? v.ty).isSome ∧ offset = Word.wrapSigned (c.stackBaseOffset + stackBytes L (values.take i))

/-- Whether the values in memory lie one behind the other, the first where the stack begins. -/
def Consecutive (c : Convention) (L : DataLayout) (values : List ValueDecl) : Prop :=
  ∀ i v offset, values[i]? = some v → v.offset? = some offset →
    offset = c.stackBaseOffset + stackBytes L (values.take i)

/-- Whether every value in memory begins at an offset that a word can hold. -/
def StackFits (c : Convention) (L : DataLayout) (values : List ValueDecl) : Prop :=
  ∀ i v, values[i]? = some v → v.offset?.isSome →
    c.stackBaseOffset + stackBytes L (values.take i) < 0x8000000000000000

instance : Decidable (c.StackFits L values) :=
  decidable_of_iff (∀ i : Fin values.length, values[i].offset?.isSome →
    c.stackBaseOffset + stackBytes L (values.take i) < 0x8000000000000000)
    ⟨fun fits i v here => by
      obtain ⟨inside, rfl⟩ := List.getElem?_eq_some_iff.mp here
      exact fits ⟨i, inside⟩, fun fits i => fits i _ (List.getElem?_eq_getElem i.isLt)⟩

theorem Stacked.consecutive_iff (base : Word.IsSigned c.stackBaseOffset) (stacked : c.Stacked L values) :
    c.Consecutive L values ↔ c.StackFits L values := by
  constructor
  · intro consecutive i v here inMemory
    obtain ⟨offset, there⟩ := Option.isSome_iff_exists.mp inMemory
    have same := (stacked i v offset here there).2
    rw [consecutive i v offset here there] at same
    exact (Word.wrapSigned_eq_iff.mp same.symm).2
  · intro fits i v offset here there
    rw [(stacked i v offset here there).2, Word.wrapSigned_eq_iff]
    have low := base.1
    exact ⟨by omega, fits i v here (by simp [there])⟩

theorem stackBytes_append (values more : List ValueDecl) :
    stackBytes L (values ++ more) = stackBytes L values + stackBytes L more := by
  simp [stackBytes]

theorem Consecutive.endsBefore (consecutive : c.Consecutive L values) :
    values.Pairwise (ValueDecl.EndsBefore L) := by
  rw [List.pairwise_iff_getElem]
  intro i j inside inside' before low high size low_eq high_eq sized
  rw [consecutive i _ low (List.getElem?_eq_getElem inside) low_eq,
    consecutive j _ high (List.getElem?_eq_getElem inside') high_eq]
  have takes : values[i].stackSize L = size := by
    unfold ValueDecl.offset? at low_eq
    unfold ValueDecl.stackSize
    split at low_eq <;> simp_all
  have upto : stackBytes L (values.take (i + 1)) = stackBytes L (values.take i) + size := by
    rw [List.take_add_one, stackBytes_append, List.getElem?_eq_getElem inside]
    simp [stackBytes, takes]
  have rest := List.take_append_drop (i + 1) (values.take j)
  rw [List.take_take, Nat.min_eq_left before] at rest
  rw [← rest, stackBytes_append, upto]
  omega

theorem Seats.snoc {v : ValueDecl} {seat : Option Nat} (seated : c.Seats L values seats)
    (last : c.Seat L seats v seat) : c.Seats L (values ++ [v]) (seats ++ [seat]) := by
  have length_eq := seated.length_eq
  refine ⟨by simp [length_eq], ?_, fun i w other here there => ?_⟩
  · cases last with
    | memory => simpa [List.reduceOption_append] using seated.distinct
    | register _ _ _ _ free _ =>
      rw [List.reduceOption_append, List.nodup_append]
      refine ⟨seated.distinct, by simp [List.reduceOption], ?_⟩
      rintro k member _ last rfl
      cases List.mem_singleton.mp last
      exact free (by simpa [List.reduceOption] using member)
  · rcases Nat.lt_or_ge i values.length with inside | outside
    · rw [List.getElem?_append_left inside] at here
      rw [List.getElem?_append_left (by omega)] at there
      rw [List.take_append_of_le_length (by omega)]
      exact seated.each i w other here there
    · have bound : i < (values ++ [v]).length := (List.getElem?_eq_some_iff.mp here).1
      have same : i = values.length := by
        simp only [List.length_append, List.length_singleton] at bound
        omega
      subst same
      obtain rfl : v = w := by simpa using here
      rw [← length_eq] at there ⊢
      obtain rfl : seat = other := by simpa using there
      simpa using last

theorem Stacked.snoc {v : ValueDecl} (stacked : c.Stacked L values)
    (last : ∀ offset, v.offset? = some offset → (L.allocSize? v.ty).isSome ∧
      offset = Word.wrapSigned (c.stackBaseOffset + stackBytes L values)) : c.Stacked L (values ++ [v]) := by
  intro i w offset here there
  rcases Nat.lt_or_ge i values.length with inside | outside
  · rw [List.getElem?_append_left inside] at here
    rw [List.take_append_of_le_length (by omega)]
    exact stacked i w offset here there
  · have bound : i < (values ++ [v]).length := (List.getElem?_eq_some_iff.mp here).1
    have same : i = values.length := by
      simp only [List.length_append, List.length_singleton] at bound
      omega
    subst same
    obtain rfl : v = w := by simpa using here
    simpa using last offset there

/-- What holds after some values have been placed. -/
structure Placed (c : Convention) (L : DataLayout) (values : List ValueDecl) (seats : List (Option Nat))
    (a : Allocation) (offset : Int) : Prop where
  slots : a.slots = c.paramRegisters
  reserved : a.reserved.length = a.slots.length
  taken : ∀ k, a.IsTaken k ↔ some k ∈ seats
  seated : c.Seats L values seats
  stacked : c.Stacked L values
  cursor : offset = Word.wrapSigned (c.stackBaseOffset + stackBytes L values)

theorem Placed.start (base : Word.IsSigned c.stackBaseOffset) :
    c.Placed L [] [] (.start c.paramRegisters) c.stackBaseOffset where
  slots := rfl
  reserved := by simp [Allocation.start]
  taken k := by simp [Allocation.not_isTaken_start]
  seated := ⟨rfl, by simp [List.reduceOption], by simp⟩
  stacked := by simp [Stacked]
  cursor := by simpa [stackBytes] using (Word.wrapSigned_eq_iff.mpr base).symm

theorem Placed.inRegister {ty : Ty} {what : ValueClass} {register : String} {a' : Allocation}
    (placed : c.Placed L values seats a offset) (class_eq : ValueClass.ofTy? L ty = some what)
    (free : a.allocate? what = some (register, a')) :
    ∃ k, c.Placed L (values ++ [.inRegister register ty]) (seats ++ [some k]) a' offset := by
  obtain ⟨k, s, v, slot, first, rfl, untaken, before, rfl⟩ := Allocation.allocate?_some free
  have inside : k < a.reserved.length := by
    rw [placed.reserved]
    exact (List.getElem?_eq_some_iff.mp slot).1
  rw [placed.slots] at slot before
  refine ⟨k, placed.slots, by simp [placed.reserved], fun j => ?_, placed.seated.snoc ?_, placed.stacked.snoc ?_, ?_⟩
  · rw [Allocation.isTaken_set k j inside, placed.taken]
    simp [or_comm]
  · apply Seat.register slot class_eq first rfl
    · exact fun earlier => untaken ((placed.taken k).mpr earlier)
    · exact fun j u other accepts lower => (placed.taken j).mp (before j u other accepts lower)
  · nofun
  · rw [stackBytes_append]
    simpa [stackBytes, ValueDecl.stackSize, ValueDecl.inRegister] using placed.cursor

theorem Placed.inMemory {ty : Ty} {size : Nat} (placed : c.Placed L values seats a offset)
    (none : (ValueClass.ofTy? L ty).bind a.allocate? = none) (sized : L.allocSize? ty = some size) :
    c.Placed L (values ++ [.inMemory c.stackPointer offset ty]) (seats ++ [Option.none]) a
      (Word.wrapSigned (offset + size)) := by
  refine ⟨placed.slots, placed.reserved, fun j => ?_, placed.seated.snoc ?_, placed.stacked.snoc ?_, ?_⟩
  · simp [placed.taken]
  · apply Seat.memory rfl
    intro what class_eq j u slot accepts
    rw [← placed.slots] at slot
    rw [← placed.taken]
    have class_eq : ValueClass.ofTy? L ty = some what := class_eq
    rw [class_eq] at none
    exact Allocation.allocate?_none none slot accepts
  · rintro _ ⟨⟩
    exact ⟨by simp [ValueDecl.inMemory, sized], placed.cursor⟩
  · rw [placed.cursor, Word.wrapSigned_add, stackBytes_append]
    simp [stackBytes, ValueDecl.stackSize, ValueDecl.inMemory, sized, Int.add_assoc]

/-- Places one value, as the parameters are placed one after another. -/
def place (c : Convention) (L : DataLayout) (a : Allocation) (offset : Int) (ty : Ty) :
    Except BindError (ValueDecl × Allocation × Int) :=
  match (ValueClass.ofTy? L ty).bind a.allocate? with
  | some (register, a) => .ok (.inRegister register ty, a, offset)
  | none =>
    match L.allocSize? ty with
    | none => .error .unsized
    | some size => .ok (.inMemory c.stackPointer offset ty, a, Word.wrapSigned (offset + size))

theorem bindParams_cons_ok {name : String} {ty : Ty} {params : List (String × Ty)}
    {decls : List ParameterDecl} (h : c.bindParams L a offset ((name, ty) :: params) = .ok decls) :
    ∃ v a' offset' rest, c.place L a offset ty = .ok (v, a', offset') ∧
      c.bindParams L a' offset' params = .ok rest ∧ decls = ⟨name, v⟩ :: rest := by
  rw [bindParams] at h
  split at h
  next register a' found =>
    obtain ⟨rest, behind, same⟩ := Recovering.bind_eq_ok h
    cases same
    exact ⟨_, a', offset, rest, by simp only [place, found], behind, rfl⟩
  next none =>
    split at h
    next => cases h
    next size sized =>
      obtain ⟨rest, behind, same⟩ := Recovering.bind_eq_ok h
      cases same
      exact ⟨_, a, _, rest, by simp only [place, none, sized], behind, rfl⟩

theorem Placed.place {ty : Ty} {v : ValueDecl} {a' : Allocation} {offset' : Int}
    (placed : c.Placed L values seats a offset) (h : c.place L a offset ty = .ok (v, a', offset')) :
    v.ty = ty ∧ ∃ seat, c.Placed L (values ++ [v]) (seats ++ [seat]) a' offset' := by
  unfold Convention.place at h
  split at h
  next register after found =>
    cases h
    obtain ⟨what, class_eq, free⟩ := Option.bind_eq_some_iff.mp found
    obtain ⟨k, next⟩ := placed.inRegister class_eq free
    exact ⟨rfl, some k, next⟩
  next none =>
    split at h
    next => cases h
    next size sized =>
      cases h
      exact ⟨rfl, Option.none, placed.inMemory none sized⟩

/-- A run of bindings places what it is given, behind what has been placed. -/
theorem Placed.bindParams {params : List (String × Ty)} {decls : List ParameterDecl}
    (placed : c.Placed L values seats a offset) (h : c.bindParams L a offset params = .ok decls) :
    (decls.map fun p => (p.name, p.value.ty)) = params ∧ ∃ more a' offset',
      c.Placed L (values ++ decls.map (·.value)) (seats ++ more) a' offset' := by
  induction params generalizing values seats a offset decls with
  | nil =>
    cases h
    exact ⟨rfl, [], a, offset, by simpa using placed⟩
  | cons param params ih =>
    obtain ⟨name, ty⟩ := param
    obtain ⟨v, a', offset', rest, first, behind, rfl⟩ := bindParams_cons_ok h
    obtain ⟨rfl, seat, next⟩ := placed.place first
    obtain ⟨same, more, last⟩ := ih next behind
    exact ⟨by simp [same], seat :: more, by simpa using last⟩

theorem bindParams_prefix {params params' more : List (String × Ty)} {decls decls' : List ParameterDecl}
    (same : params'.map Prod.snd = params.map Prod.snd) (h : c.bindParams L a offset params = .ok decls)
    (h' : c.bindParams L a offset (params' ++ more) = .ok decls') :
    decls.map (·.value) <+: decls'.map (·.value) := by
  induction params generalizing a offset params' decls decls' with
  | nil =>
    cases h
    exact List.nil_prefix
  | cons param params ih =>
    obtain ⟨⟨name', ty'⟩, rest', rfl, ty_eq, tail⟩ := List.map_eq_cons_iff.mp same
    obtain ⟨name, ty⟩ := param
    obtain rfl : ty' = ty := ty_eq
    obtain ⟨v, a', offset', rest, first, behind, rfl⟩ := bindParams_cons_ok h
    obtain ⟨v', a'', offset'', last, first', behind', rfl⟩ := bindParams_cons_ok h'
    cases first.symm.trans first'
    simpa using ih tail behind behind'

theorem placeReturn_slot {s : Signature} {ty : Ty} (h : c.placeReturn L s = .ok (.slot ty)) :
    ∃ name fields packed, ty = .struct name fields packed := by
  unfold placeReturn at h
  split at h
  next => cases h
  next =>
    split at h
    next => cases h
    next name fields packed _ =>
      obtain ⟨pieces, -, placed⟩ := Recovering.bind_eq_ok h
      split at placed <;> cases placed
      exact ⟨name, fields, packed, rfl⟩
    next => split at h <;> cases h

/-- A struct fits into no register, so its slot is bound like a parameter before the others. -/
theorem bindAllParams_eq {s : Signature} {ret : ReturnBinding} (h : c.placeReturn L s = .ok ret)
    (params : List (String × Ty)) : c.bindAllParams L ret params =
      c.bindParams L (.start c.paramRegisters) c.stackBaseOffset (ret.slotParams ++ params) := by
  cases ret with
  | registers values => rfl
  | byAddress address => rfl
  | slot ty =>
    obtain ⟨name, fields, packed, rfl⟩ := placeReturn_slot h
    rw [bindAllParams, ReturnBinding.slotParams, List.singleton_append, bindParams]
    rfl

theorem bind_ok {s : Signature} {names : List (Nat × String)} {address : Nat} {decl : FunctionDecl}
    (h : (c.bind L s names address).1 = .ok decl) : ∃ ret, c.placeReturn L s = .ok ret ∧
      c.bindParams L (.start c.paramRegisters) c.stackBaseOffset (ret.slotParams ++ s.namedArgs names) =
        .ok decl.params := by
  unfold bind at h
  split at h
  next => cases h
  next ret placed =>
    obtain ⟨params, bound, same⟩ := Recovering.bind_eq_ok h
    cases same
    exact ⟨ret, placed, (bindAllParams_eq placed _).symm.trans bound⟩

/-- More arguments do not change how a function returns. -/
theorem placeReturn_append {s : Signature} (inside : ∀ p ∈ s.structRet, p < s.args.length) (more : List Ty) :
    c.placeReturn L { s with args := s.args ++ more } = c.placeReturn L s := by
  have same : s.structRet.bind ((s.args ++ more)[·]?) = s.structRet.bind (s.args[·]?) := by
    cases position : s.structRet with
    | none => rfl
    | some p => exact List.getElem?_append_left (inside p position)
  simp only [placeReturn, same]

theorem namedArgs_types (s : Signature) (names : List (Nat × String)) :
    (s.namedArgs names).map Prod.snd = s.args := by
  simp [Signature.namedArgs, Function.comp_def]

theorem namedArgs_append (s : Signature) (names : List (Nat × String)) (more : List Ty) :
    { s with args := s.args ++ more }.namedArgs names = s.namedArgs names ++
      (more.zipIdx s.args.length).map fun (ty, position) =>
        ((names.lookup position).getD (defaultName position), ty) := by
  simp [Signature.namedArgs, List.zipIdx_append]

theorem place_struct {name : String} {fields : List Ty} {packed : Bool} {v : ValueDecl} {a' : Allocation}
    {offset' : Int} (h : c.place L a offset (.struct name fields packed) = .ok (v, a', offset')) :
    v = .inMemory c.stackPointer offset (.struct name fields packed) := by
  unfold place at h
  split at h
  next found => cases found
  next =>
    split at h <;> cases h
    rfl

/-- A function that returns a struct in memory and takes values of all kinds. -/
def mixedArgs : Signature where
  name := "f"
  linkage := .exported
  args := [.int .i32, .float .f64, .struct "s" [.int .i64, .ptr .unit, .int .i8] false, .ptr .unit,
    .vector (.float .f32) 4, .int .i128, .int .i64]
  ret := .struct "s" [.int .i64, .ptr .unit, .int .i8] false
  structRet := none
  isVariadic := false
  isNoreturn := false

/-- The first argument takes all of the stack but 8 bytes, so the offsets begin again behind it. -/
def hugeArgument : Signature where
  name := "f"
  linkage := .exported
  args := [.array .i8 18446744073709551608, .array .i8 8, .array .i8 8]
  ret := .unit
  structRet := none
  isVariadic := false
  isNoreturn := false

end Convention

end VarRecovery
