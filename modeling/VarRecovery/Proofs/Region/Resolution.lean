import VarRecovery.Proofs.Region.Denotation
import VarRecovery.Region.Frame

/-!
How the address of a cell is found: it is remembered, or that of a byte of the frame is made, or a base is made of an
entity and displaced, if one holds it. Each step is taken apart here once.
-/

set_option autoImplicit false

namespace VarRecovery

/-- An address in a frame is remembered, or it is made of the frame's and then remembered. -/
theorem FrameRedirection.address_cases {s s' : FrameRedirection} {f : FuncId} {base : Nat} {bytes int : ValueId}
    {c : Cell} {ty : Ty} (h : s.address f base bytes c ty = .ok (s', int)) :
    (((c.address, ty), int) ∈ s.memo ∧ s' = s) ∨
    ∃ m₁ offset m₂ cursor₂ ptr m₃ cursor₃, s.module.addOffset f ((c.address - base : Nat) : Int) = (m₁, offset) ∧
      s.cursor.insert m₁ f (.gep bytes [offset]) (.ptr .i8) = .ok (m₂, cursor₂, ptr) ∧
      cursor₂.insert m₂ f (.cast .ptrToInt ptr ty) ty = .ok (m₃, cursor₃, int) ∧
      s' = ⟨m₃, cursor₃, ((c.address, ty), int) :: s.memo, s.pointers ++ [ptr]⟩ := by
  unfold address at h
  split at h
  next known found =>
    cases h
    exact .inl ⟨mem_of_lookup found, rfl⟩
  next =>
    generalize s.module.addOffset f ((c.address - base : Nat) : Int) = added at h
    obtain ⟨m₁, offset⟩ := added
    obtain ⟨⟨m₂, cursor₂, ptr⟩, gep, h⟩ := Recovering.bind_eq_ok h
    obtain ⟨⟨m₃, cursor₃, number⟩, cast, h⟩ := Recovering.bind_eq_ok h
    cases h
    exact .inr ⟨m₁, offset, m₂, cursor₂, ptr, m₃, cursor₃, rfl, gep, cast, rfl⟩

/-- What building a frame that succeeds did: a slot was written and its address as one of bytes, and then cells were
redirected. -/
theorem Module.buildFrame_ok {m n : Module} {f : FuncId} {cells : List Cell} {stackPointer : Option Nat} {redzone : Nat}
    {cursor last : EntryCursor} {frame : Frame} {ws stop : List Warning}
    (run : (m.buildFrame f cells stackPointer redzone cursor).run.run ws = (.ok (n, last, frame), stop)) :
    ∃ base types ty m₁ cursor₁ slot m₂ cursor₂ bytes s,
      cursor.insert { m with types } f (.alloca ty) (.ptr ty) = .ok (m₁, cursor₁, slot) ∧
      cursor₁.insert m₁ f (.cast .bitcast slot (.ptr .i8)) (.ptr .i8) = .ok (m₂, cursor₂, bytes) ∧
      FrameRedirection.redirectAll f base bytes (Cell.sort (.ofCells cells) m.layout cells) ⟨m₂, cursor₂, [], [slot]⟩ =
        .ok s ∧
      n = s.module ∧ last = s.cursor := by
  unfold buildFrame at run
  cases stackPointer with
  | none => cases run
  | some stackPointer =>
    obtain ⟨l, _, -, run⟩ := Recovering.bind_ok run
    dsimp only at run
    generalize m.types.addFresh (m.funcName f ++ ".frame") l.fields.types true = added at run
    obtain ⟨types, ty⟩ := added
    obtain ⟨⟨m₁, cursor₁, slot⟩, _, allocated, run⟩ := Recovering.bind_ok run
    obtain ⟨allocated, -⟩ := Recovering.lift_ok allocated
    obtain ⟨⟨m₂, cursor₂, bytes⟩, _, cast, run⟩ := Recovering.bind_ok run
    obtain ⟨cast, -⟩ := Recovering.lift_ok cast
    obtain ⟨s, _, redirected, run⟩ := Recovering.bind_ok run
    obtain ⟨redirected, -⟩ := Recovering.lift_ok redirected
    obtain ⟨done, -⟩ := Recovering.pure_ok run
    cases done
    exact ⟨l.base, types, ty, m₁, cursor₁, slot, m₂, cursor₂, bytes, s, allocated, cast, redirected, rfl, rfl⟩

namespace GlobalRedirection

variable {t : EntityTable} {s s' : GlobalRedirection} {f : FuncId} {c : Cell} {ptr v : ValueId} {ty : Ty}
  {offset address : Nat} {int : Option ValueId}

/-- An address is found in an entity that holds it, whose own address becomes a value of the function. -/
theorem entity?_cases (h : s.entity? t f address = some (s', ptr, offset)) :
    (∃ id, t.Holds (.func id) offset address ∧ s' = { s with module := (s.module.addFuncValue f id).1 } ∧
      ptr = (s.module.addFuncValue f id).2) ∨
    ∃ id, t.Holds (.var id) offset address ∧ s' = { s with module := (s.module.addGlobalValue f id).1 } ∧
      ptr = (s.module.addGlobalValue f id).2 := by
  unfold GlobalRedirection.entity? at h
  split at h
  next id found =>
    cases h
    exact .inl ⟨id, EntityTable.holds_of_get? found, rfl, rfl⟩
  next id found =>
    cases h
    exact .inr ⟨id, EntityTable.holds_of_get? found, rfl, rfl⟩
  next =>
    split at h
    next start id size covered =>
      cases h
      exact .inr ⟨id, EntityTable.holds_of_covering? covered, rfl, rfl⟩
    next => cases h

/-- A base is remembered, or it is written and then remembered. -/
theorem base_cases (h : s.base f ptr ty = .ok (s', v)) :
    (((f, ptr, ty), v) ∈ s.bases ∧ s' = s) ∨
    ∃ module cursor, s.cursor.insert s.module f (.cast .ptrToInt ptr ty) ty = .ok (module, cursor, v) ∧
      s' = { s with module, cursor, bases := ((f, ptr, ty), v) :: s.bases } := by
  unfold base at h
  split at h
  next found =>
    cases h
    exact .inl ⟨mem_of_lookup found, rfl⟩
  next =>
    obtain ⟨⟨module, cursor, made⟩, written, done⟩ := Recovering.bind_eq_ok h
    cases done
    exact .inr ⟨module, cursor, written, rfl⟩

/-- A base is the address itself, or a constant is added to it, if the type has one. -/
theorem displace_cases (h : s.displace f v offset ty = .ok (s', int)) :
    (offset = 0 ∧ s' = s ∧ int = some v) ∨
    (∃ i func module cursor sum, Imm.ofInt? ty offset = some i ∧ s.module.func? f = some func ∧
      s.cursor.insert (s.module.updateFunc f fun _ => (func.addImm i).1) f (.binary .add v (func.addImm i).2) ty =
        .ok (module, cursor, sum) ∧ s' = { s with module, cursor } ∧ int = some sum) ∨
    ((Imm.ofInt? ty offset = none ∨ s.module.func? f = none) ∧ s' = s ∧ int = none) := by
  unfold displace at h
  split at h
  next here =>
    cases h
    exact .inl ⟨here, rfl, rfl⟩
  next =>
    split at h
    next i func constant found =>
      obtain ⟨⟨module, cursor, sum⟩, written, done⟩ := Recovering.bind_eq_ok h
      cases done
      exact .inr (.inl ⟨i, func, module, cursor, sum, constant, found, written, rfl, rfl⟩)
    next missing =>
      cases h
      refine .inr (.inr ⟨?_, rfl, rfl⟩)
      cases constant : Imm.ofInt? ty offset with
      | none => exact .inl rfl
      | some i =>
        cases found : s.module.func? f with
        | none => exact .inr rfl
        | some func => exact absurd found (missing i func constant)

/-- An address is remembered, or no entity holds it, or it is made and then remembered. -/
theorem resolve_cases (h : s.resolve t c ty = .ok (s', int)) :
    (∃ v, ((c.func, c.address, ty), v) ∈ s.memo ∧ s' = s ∧ int = some v) ∨
    (s.entity? t c.func c.address = none ∧ s' = s ∧ int = none) ∨
    ∃ s₁ ptr offset s₂ v s₃ memo pointers, s.entity? t c.func c.address = some (s₁, ptr, offset) ∧
      s₁.base c.func ptr ty = .ok (s₂, v) ∧ s₂.displace c.func v offset ty = .ok (s₃, int) ∧
      s' = { s₃ with memo, pointers } ∧
      ∀ key w, (key, w) ∈ memo → (key, w) ∈ s₃.memo ∨ key = (c.func, c.address, ty) ∧ int = some w := by
  unfold resolve at h
  split at h
  next v found =>
    cases h
    exact .inl ⟨v, mem_of_lookup found, rfl, rfl⟩
  next =>
    split at h
    next nowhere =>
      cases h
      exact .inr (.inl ⟨nowhere, rfl, rfl⟩)
    next s₁ ptr offset placed =>
      obtain ⟨⟨s₂, v⟩, cast, h⟩ := Recovering.bind_eq_ok h
      obtain ⟨⟨s₃, sum⟩, displaced, h⟩ := Recovering.bind_eq_ok h
      refine .inr (.inr ⟨s₁, ptr, offset, s₂, v, s₃, s'.memo, s'.pointers, placed, cast, ?_⟩)
      -- Only an address that was built is remembered; a failed one is tried again next time.
      cases sum with
      | none =>
        cases h
        exact ⟨displaced, rfl, fun _ _ before => .inl before⟩
      | some w =>
        cases h
        refine ⟨displaced, rfl, fun key u member => ?_⟩
        rcases List.mem_cons.mp member with same | before
        · cases same
          exact .inr ⟨rfl, rfl⟩
        · exact .inl before

/-- The constant of a cell stays, or the address that was found takes its place. -/
theorem redirect_cases (h : s.redirect t c = .ok s') :
    ∃ s₁ int, s.resolve t c ((s.module.graph c.func).ty c.value) = .ok (s₁, int) ∧
      (int = none ∧ s' = s₁ ∨ ∃ new, int = some new ∧
        s' = { s₁ with module := s₁.module.updateGraph c.func (·.replaceOperand c.user c.value new) }) := by
  obtain ⟨⟨s₁, int⟩, resolved, h⟩ := Recovering.bind_eq_ok h
  refine ⟨s₁, int, resolved, ?_⟩
  cases int with
  | none =>
    cases h
    exact .inl ⟨rfl, rfl⟩
  | some new =>
    cases h
    exact .inr ⟨new, rfl, rfl⟩

end GlobalRedirection

end VarRecovery
