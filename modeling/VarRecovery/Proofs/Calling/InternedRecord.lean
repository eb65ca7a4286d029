import VarRecovery.Calling.InternedRecord
import VarRecovery.Proofs.Ty.ArenaReading

/-!
What holds of an arena of types after any calls that make types and any reads of spellings and records: a handle stands
for one type for good, and no other handle stands for that type.
-/

set_option autoImplicit false

namespace VarRecovery

namespace ArenaReading

variable {ε ε' α β : Type} {a b : Arena} {rel : Arena → α → β → Prop}

theorem Follows.adapt {x : ArenaReading ε α} {y : ExceptT ε (StateM TyStore) β} (f : ε → ε') (follows : Follows a rel x y) :
    Follows a rel (x.adapt f : ArenaReading ε' α) (y.adapt f : ExceptT ε' (StateM TyStore) β) := by
  have runX : (x.adapt f : ArenaReading ε' α).run = Except.mapError f <$> x.run := rfl
  have runY : (y.adapt f : ExceptT ε' (StateM TyStore) β).run = Except.mapError f <$> y.run := rfl
  obtain ⟨b, valid, grown, ⟨v, w, ran, other, related⟩ | ⟨e, ran, other⟩⟩ := follows
  · refine ⟨b, valid, grown, .inl ⟨v, w, ?_, ?_, related⟩⟩
    · rw [runX, ExceptT.run_map, StateT.run_map, ran]
      rfl
    · rw [runY, StateT.run_map, other]
      rfl
  · refine ⟨b, valid, grown, .inr ⟨f e, ?_, ?_⟩⟩
    · rw [runX, ExceptT.run_map, StateT.run_map, ran]
      rfl
    · rw [runY, StateT.run_map, other]
      rfl

theorem follows_readTy (valid : a.Valid) (text : String) : Follows a IsHandle (readTy text) (RecordReading.readTy text) :=
  (follows_ofText valid text).adapt RecordError.ty

theorem follows_valueDecl (valid : a.Valid) (r : ValueRecord) :
    Follows a (fun b h d => IsHandle b h d.ty) (valueDecl r) r.decl := by
  unfold valueDecl ValueRecord.decl
  cases r.location? with
  | none => exact follows_throw valid _
  | some location =>
    rw [← bind_pure (readTy r.ty)]
    exact (follows_readTy valid r.ty).bind fun b h ty grown valid handle => follows_pure valid handle

theorem follows_mapM {ρ δ : Type} {decl : ρ → ArenaReading ε Handle} {other : ρ → ExceptT ε (StateM TyStore) δ}
    (ty : δ → Ty) (one : ∀ {a : Arena}, a.Valid → ∀ r, Follows a (fun b h d => IsHandle b h (ty d)) (decl r) (other r))
    (rs : List ρ) {a : Arena} (valid : a.Valid) :
    Follows a (fun b hs ds => AreHandles b hs (ds.map ty)) (rs.mapM decl) (rs.mapM other) := by
  induction rs generalizing a with
  | nil => exact follows_pure valid ⟨nofun, rfl⟩
  | cons r rs ih =>
    rw [List.mapM_cons, List.mapM_cons]
    refine (one valid r).bind fun b h d grown valid handle => ?_
    refine (ih valid).bind fun c hs ds grown' valid' handles => ?_
    have kept := handle.grow grown' valid valid'
    exact follows_pure valid' ⟨List.forall_mem_cons.mpr ⟨kept.1, handles.1⟩, congrArg₂ List.cons kept.2 handles.2⟩

theorem follows_returnStruct {name : String} {fields : List Handle} {tys : List Ty} (valid : a.Valid)
    (handles : AreHandles a fields tys) :
    Follows a IsHandle (returnStruct name fields) (FunctionRecord.returnStruct name tys) := by
  obtain ⟨within, rfl⟩ := handles
  have free : a.structs.lookup (FreshName.choose a.names (name ++ ".ret")) = none := by
    rw [List.lookup_eq_none_iff]
    intro entry member
    have differs : FreshName.choose a.names (name ++ ".ret") ≠ entry.1 := fun same =>
      FreshName.choose_notMem (name ++ ".ret") a.names (same ▸ List.mem_map_of_mem member)
    simpa using differs
  have fresh : Follows (ε := RecordError) a IsHandle
      (liftM (Interning.make (.struct (FreshName.choose a.names (name ++ ".ret")) fields false)))
      (do set (a.store.addFresh (name ++ ".ret") (fields.map a.ty) false).1
          return (a.store.addFresh (name ++ ".ret") (fields.map a.ty) false).2) := by
    rw [← valid.names_store] at free ⊢
    exact follows_declare valid within free
  refine follows_get ?_
  dsimp only
  rw [valid.find?_store]
  cases looked : a.structs.lookup (name ++ ".ret") with
  | none => exact fresh
  | some place =>
    obtain ⟨known, flag, found⟩ := (valid.named _ place).mp looked
    have same := valid.eq_iff_map_ty (valid.isIn_fields found) within
    simp only [Option.bind_some, Arena.structAt?_some found, found, Option.some.injEq, Compound.struct.injEq, true_and,
      StructDef.mk.injEq]
    -- Handles are unique, so the two field lists agree as handles exactly when they do as types:
    -- both programs reuse the record or both make a fresh one.
    by_cases equal : known = fields ∧ flag = false
    · rw [if_pos equal, if_pos ⟨same.mp equal.1, equal.2⟩]
      obtain ⟨rfl, rfl⟩ := equal
      exact follows_pure valid ⟨Arena.isIn_of_found found, valid.ty_compound found⟩
    · rw [if_neg equal, if_neg fun both => equal ⟨same.mpr both.1, both.2⟩]
      exact fresh

theorem follows_returnTy {name : String} {hs : List Handle} {ds : List ValueDecl} (valid : a.Valid)
    (handles : AreHandles a hs (ds.map ValueDecl.ty)) :
    Follows a IsHandle (returnTy name hs) (FunctionRecord.returnTy name ds) := by
  have length : hs.length = ds.length := by simpa using congrArg List.length handles.2
  rcases ds with _ | ⟨d, _ | ⟨d', ds⟩⟩ <;> rcases hs with _ | ⟨h, _ | ⟨h', hs⟩⟩ <;> simp at length
  · exact follows_pure valid ⟨fun _ same => Handle.noConfusion same, rfl⟩
  · exact follows_pure valid ⟨handles.1 h (List.mem_singleton_self h), (List.cons.inj handles.2).1⟩
  · exact follows_returnStruct valid handles

/-- The handles of a function are those of the types of its declaration. -/
def AreOf (b : Arena) (fh : FunctionHandles) (d : FunctionDecl) : Prop :=
  AreHandles b fh.params (d.params.map (·.value.ty)) ∧ AreHandles b fh.returns (d.returns.map ValueDecl.ty) ∧
    IsHandle b fh.returnAddress d.returnAddress.ty ∧ IsHandle b fh.ret d.signature.ret

theorem follows_functionDecl (valid : a.Valid) (r : FunctionRecord) : Follows a AreOf (functionDecl r) r.decl := by
  have parameter {a : Arena} (valid : a.Valid) (r : ParameterRecord) :
      Follows a (fun b h d => IsHandle b h d.value.ty) (valueDecl r.value) r.decl := by
    rw [ParameterRecord.decl, ← bind_pure (valueDecl r.value)]
    exact (follows_valueDecl valid r.value).bind fun b h d grown valid handle => follows_pure valid handle
  rw [functionDecl, FunctionRecord.decl]
  refine (follows_mapM (·.value.ty) parameter r.parameters valid).bind fun b ps params _ here params_ => ?_
  refine (follows_mapM ValueDecl.ty follows_valueDecl r.returnValues here).bind
    fun c rs returns grown there returns_ => ?_
  replace params_ := params_.grow grown here there
  refine (follows_valueDecl there r.returnAddress).bind fun d ra returnAddress grown behind address => ?_
  replace params_ := params_.grow grown there behind
  replace returns_ := returns_.grow grown there behind
  refine (follows_returnTy behind returns_).bind fun e ret ty grown last ret_ => ?_
  exact follows_pure last ⟨params_.grow grown behind last, returns_.grow grown behind last,
    address.grow grown behind last, ret_⟩

theorem follows_variableDecl (valid : a.Valid) (r : VariableRecord) :
    Follows a (fun b h d => IsHandle b h d.ty) (variableDecl r) r.decl := by
  rw [variableDecl, VariableRecord.decl, ← bind_pure (readTy r.ty)]
  exact (follows_readTy valid r.ty).bind fun b h ty grown valid handle => follows_pure valid handle

end ArenaReading

namespace Arena

open ArenaReading

variable {a b : Arena}

/-- A call that makes a type of handles of the arena, or reads a spelling or a record, and does not clash. The read may
fail. -/
inductive Step (a b : Arena) : Prop
  | make (c : Compound) (h : Handle) (within : ∀ part ∈ c.parts, part.IsIn a)
    (made : (Interning.make c).run.run a = (.ok h, b))
  | spelling (text : String) (result : Except Ty.ReadError Handle)
    (read : (ofText text).run.run.run a = (.ok result, b))
  | value (r : ValueRecord) (result : Except RecordError Handle)
    (read : (valueDecl r).run.run.run a = (.ok result, b))
  | global (r : VariableRecord) (result : Except RecordError Handle)
    (read : (variableDecl r).run.run.run a = (.ok result, b))
  | function (r : FunctionRecord) (result : Except RecordError FunctionHandles)
    (read : (functionDecl r).run.run.run a = (.ok result, b))

theorem valid_of_follows {ε α β : Type} {rel : Arena → α → β → Prop} {x : ArenaReading ε α}
    {y : ExceptT ε (StateM TyStore) β} {result : Except ε α} (follows : Follows a rel x y)
    (read : x.run.run.run a = (.ok result, b)) : b.Valid ∧ a.Extends b := by
  obtain ⟨c, valid, grown, ⟨v, w, ran, -, -⟩ | ⟨e, ran, -⟩⟩ := follows
  all_goals
    cases ran.symm.trans read
    exact ⟨valid, grown⟩

/-- What one call keeps. -/
theorem Step.valid (step : Step a b) (valid : a.Valid) : b.Valid ∧ a.Extends b := by
  cases step with
  | make c h within made =>
    obtain ⟨after, grown, -⟩ := Interning.make_ok valid within made
    exact ⟨after, grown⟩
  | spelling text result read => exact valid_of_follows (follows_ofText valid text) read
  | value r result read => exact valid_of_follows (follows_valueDecl valid r) read
  | global r result read => exact valid_of_follows (follows_variableDecl valid r) read
  | function r result read => exact valid_of_follows (follows_functionDecl valid r) read

/-- What any calls keep. -/
theorem valid_of_steps (steps : Relation.ReflTransGen Step a b) (valid : a.Valid) : b.Valid ∧ a.Extends b := by
  induction steps with
  | refl => exact ⟨valid, .refl a⟩
  | tail _ step ih =>
    obtain ⟨here, grown⟩ := ih
    obtain ⟨after, grows⟩ := step.valid here
    exact ⟨after, grown.trans grows⟩

/-- The types in a type are found in finitely many steps. -/
theorem Valid.wellFounded (valid : a.Valid) : WellFounded fun part h : Handle =>
    ∃ place c, h = .compound place ∧ a.compounds[place]? = some c ∧ part ∈ c.parts := by
  -- The places go down, and scalar types have nothing in them.
  refine Subrelation.wf (r := InvImage (· < ·) fun | Handle.compound place => place + 1 | _ => 0) ?_
    (InvImage.wf _ Nat.lt_wfRel.wf)
  rintro part h ⟨place, c, rfl, found, member⟩
  cases part with
  | compound other => exact Nat.succ_lt_succ (valid.down place c found _ member other rfl)
  | _ => exact Nat.succ_pos place

/-- A handle that was made or read stands for one type for good, and no other handle does. A type is made from types that
were there before it, and a name from one struct, which is found by it. -/
theorem handles_stand_for_types (steps : Relation.ReflTransGen Step empty a) :
    (∀ place (c : Compound), a.compounds[place]? = some c →
      (∀ part ∈ c.parts, ∀ other, part = .compound other → other < place) ∧ a.ty (.compound place) = c.ty a.ty) ∧
    (WellFounded fun part h : Handle =>
      ∃ place c, h = .compound place ∧ a.compounds[place]? = some c ∧ part ∈ c.parts) ∧
    (∀ h other : Handle, h.IsIn a → other.IsIn a → (h = other ↔ a.ty h = a.ty other)) ∧
    (∀ name place, a.structs.lookup name = some place ↔
      ∃ fields packed, a.compounds[place]? = some (Compound.struct name fields packed)) ∧
    ∀ b, Relation.ReflTransGen Step a b → ∀ h : Handle, h.IsIn a → h.IsIn b ∧ b.ty h = a.ty h ∧
      ∀ place, h = .compound place → b.compounds[place]? = a.compounds[place]? := by
  obtain ⟨valid, -⟩ := valid_of_steps steps valid_empty
  refine ⟨fun place c found => ⟨valid.down place c found, valid.ty_compound found⟩, valid.wellFounded,
    fun h other within inside => ⟨congrArg _, valid.ty_injective within inside⟩, valid.named, fun b later h within => ?_⟩
  obtain ⟨after, grown⟩ := valid_of_steps later valid
  refine ⟨grown.isIn within, grown.ty_eq valid after within, ?_⟩
  rintro place rfl
  have found := Array.getElem?_eq_getElem (within place rfl)
  rw [found]
  exact grown place _ found

/-- A struct, and a pointer to it. -/
def structAndPointer : Arena where
  compounds := #[.struct "s" [.int .i8] false, .ptr (.compound 0)]
  places := [(.ptr (.compound 0), 1), (.struct "s" [.int .i8] false, 0)]
  structs := [("s", 0)]

/-- The struct is made and the pointer is read. A read of another struct of that name fails. -/
theorem structAndPointer_stands : ∃ _ : Relation.ReflTransGen Step empty structAndPointer,
    structAndPointer.ty (.compound 1) = .ptr (.struct "s" [.i8] false) ∧
      ∀ h : Handle, h.IsIn structAndPointer →
        (h = .compound 1 ↔ structAndPointer.ty h = .ptr (.struct "s" [.i8] false)) := by
  let made : Arena := ⟨#[.struct "s" [.int .i8] false], [(.struct "s" [.int .i8] false, 0)], [("s", 0)]⟩
  have struct : Step empty made := .make (.struct "s" [.int .i8] false) (.compound 0) (by simp [Compound.parts, Handle.IsIn]) rfl
  have pointer : Step made structAndPointer := .spelling "*@s" (.ok (.compound 1)) (by cbv)
  have conflict : Step structAndPointer structAndPointer :=
    .spelling "*@s{i16}" (.error (.conflictingStruct "s")) (by cbv)
  have steps : Relation.ReflTransGen Step empty structAndPointer :=
    ((Relation.ReflTransGen.single struct).tail pointer).tail conflict
  have spelled : structAndPointer.ty (.compound 1) = .ptr (.struct "s" [.i8] false) := by decide +kernel
  obtain ⟨-, -, equal, -⟩ := handles_stand_for_types steps
  refine ⟨steps, spelled, fun h within => ?_⟩
  rw [equal h (.compound 1) within (isIn_of_found rfl), spelled]

end Arena

end VarRecovery
