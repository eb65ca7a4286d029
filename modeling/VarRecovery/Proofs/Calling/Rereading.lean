import VarRecovery.Calling.Binding
import VarRecovery.Proofs.Calling.Record
import VarRecovery.Proofs.FreshName

/-!
A record read again. The types that it spells are found again where they were declared, in any store that has grown since.
The struct for several returned values is found by its name alone.
-/

set_option autoImplicit false

namespace VarRecovery

variable {ε ε' α β : Type} {s t u : TyStore}

theorem ran_bind {x : ExceptT ε (StateM TyStore) α} {f : α → ExceptT ε (StateM TyStore) β} {b : β}
    (ran : (x >>= f).run.run s = (.ok b, u)) :
    ∃ a t, x.run.run s = (.ok a, t) ∧ (f a).run.run t = (.ok b, u) := by
  rw [ExceptT.run_bind, StateT.run_bind] at ran
  generalize x.run.run s = out at ran
  obtain ⟨result, t⟩ := out
  cases result with
  | error e => cases ran
  | ok a => exact ⟨a, t, rfl, ran⟩

theorem run_bind_ok {x : ExceptT ε (StateM TyStore) α} {f : α → ExceptT ε (StateM TyStore) β} {a : α}
    (ran : x.run.run s = (.ok a, t)) : (x >>= f).run.run s = (f a).run.run t := by
  rw [ExceptT.run_bind, StateT.run_bind, ran]
  rfl

/-- A step that succeeds again wherever what it declared is declared, with the same result and without a change. -/
def Settles (x : ExceptT ε (StateM TyStore) α) : Prop :=
  ∀ s a t, x.run.run s = (.ok a, t) → s.Grows t ∧ ∀ u, t.Grows u → x.run.run u = (.ok a, u)

namespace Settles

theorem pure (a : α) : Settles (Pure.pure a : ExceptT ε (StateM TyStore) α) := by
  intro s b t ran
  cases ran
  exact ⟨.refl s, fun u grows => rfl⟩

theorem throw (e : ε) : Settles (MonadExcept.throw e : ExceptT ε (StateM TyStore) α) := by
  intro s b t ran
  cases ran

theorem bind {x : ExceptT ε (StateM TyStore) α} {f : α → ExceptT ε (StateM TyStore) β} (first : Settles x)
    (next : ∀ a, Settles (f a)) : Settles (x >>= f) := by
  intro s b u ran
  obtain ⟨a, t, here, there⟩ := ran_bind ran
  obtain ⟨grows, again⟩ := first s a t here
  obtain ⟨grows', again'⟩ := next a t b u there
  refine ⟨grows.trans grows', fun v later => ?_⟩
  rw [run_bind_ok (again v (grows'.trans later))]
  exact again' v later

theorem mapM {f : α → ExceptT ε (StateM TyStore) β} (each : ∀ a, Settles (f a)) (as : List α) : Settles (as.mapM f) := by
  induction as with
  | nil => exact pure []
  | cons a as ih =>
    rw [List.mapM_cons]
    exact (each a).bind fun b => ih.bind fun bs => pure (b :: bs)

theorem adapt {x : ExceptT ε (StateM TyStore) α} (settles : Settles x) (f : ε → ε') :
    Settles (x.adapt f : ExceptT ε' (StateM TyStore) α) := by
  have run (s : TyStore) : (x.adapt f).run.run s = (Except.mapError f (x.run.run s).1, (x.run.run s).2) := rfl
  intro s a t ran
  obtain ⟨result, left⟩ := Prod.ext_iff.mp ((run s).symm.trans ran)
  have inner : x.run.run s = (.ok a, t) := by
    refine Prod.ext ?_ left
    cases ok : (x.run.run s).1 with
    | error e => simp [ok, Except.mapError] at result
    | ok b => simpa [ok, Except.mapError] using result
  obtain ⟨grows, again⟩ := settles s a t inner
  refine ⟨grows, fun u later => ?_⟩
  rw [run, again u later]
  rfl

end Settles

namespace TyStore

variable {name : String}

theorem find?_eq_none_iff : s.find? name = none ↔ name ∉ s.names := by
  simp [find?, names]

theorem freshName_of_free (free : s.find? name = none) : s.freshName name = name := by
  obtain ⟨n, chosen, -, least⟩ := FreshName.choose_first name s.names
  cases n with
  | zero => exact chosen
  | succ n => exact absurd (least 0 (Nat.succ_pos n)) (find?_eq_none_iff.mp free)

end TyStore

namespace Ty

theorem settles_declare (d : StructDef) : Settles (declare d) := by
  intro s ty t ran
  cases found : s.find? d.name with
  | none =>
    cases ran.symm.trans (reads_new found)
    refine ⟨TyStore.grows_add s d, fun u later => reads_known (later d.name d ?_)⟩
    simp [TyStore.find?_add, found]
  | some known =>
    by_cases same : known = d
    · subst same
      cases ran.symm.trans (reads_known found)
      exact ⟨.refl s, fun u later => reads_known (later _ _ found)⟩
    · cases ran.symm.trans (stops_declare found same)

theorem settles_lookUp (name : String) : Settles (lookUp name) := by
  intro s ty t ran
  cases found : s.find? name with
  | none => cases ran.symm.trans (stops_lookUp found)
  | some d =>
    cases ran.symm.trans (reads_lookUp found)
    exact ⟨.refl s, fun u later => reads_lookUp (later name d found)⟩

theorem settles_readLength (text : String) (digits : List Char) : Settles (readLength text digits) := by
  unfold readLength
  split
  · exact .pure _
  · exact .throw _

mutual

theorem settles_resolve (text : String) (e : Expr) : Settles (e.resolve text) := by
  cases e with
  | scalar ty => exact .pure ty
  | ptr pointee => exact (settles_resolve text pointee).bind fun _ => .pure _
  | array elem len =>
    exact (settles_resolve text elem).bind fun _ => (settles_readLength text len).bind fun _ => .pure _
  | vector elem len =>
    exact (settles_resolve text elem).bind fun _ => (settles_readLength text len).bind fun _ => .pure _
  | func args ret =>
    exact (settles_resolveList text args).bind fun _ => (settles_resolve text ret).bind fun _ => .pure _
  | reference name => exact settles_lookUp _
  | struct name fields packed => exact (settles_resolveList text fields).bind fun _ => settles_declare _

theorem settles_resolveList (text : String) (es : List Expr) : Settles (Expr.resolveList text es) := by
  cases es with
  | nil => exact .pure []
  | cons e es =>
    exact (settles_resolve text e).bind fun _ => (settles_resolveList text es).bind fun _ => .pure _

end

theorem settles_ofText (text : String) : Settles (ofText text) := by
  unfold ofText
  split
  · exact .throw _
  · exact settles_resolve text _

end Ty

theorem ValueRecord.settles (r : ValueRecord) : Settles r.decl := by
  unfold decl
  split
  · exact .throw _
  · exact ((Ty.settles_ofText r.ty).adapt RecordError.ty).bind fun _ => .pure _

theorem ParameterRecord.settles (r : ParameterRecord) : Settles r.decl :=
  r.value.settles.bind fun _ => .pure _

def FunctionDecl.returning (d : FunctionDecl) (ret : Ty) : FunctionDecl :=
  { d with signature := { d.signature with ret } }

namespace FunctionRecord

open TyStore

variable {r : FunctionRecord} {d : FunctionDecl} {name : String} {returns : List ValueDecl} {ret : Ty}

/-- Whether the struct for several returned values has the name that it is looked up by. -/
def FindsReturn (s : TyStore) (name : String) (returns : List ValueDecl) : Prop :=
  returns.length < 2 ∨ s.find? (name ++ ".ret") = some ⟨name ++ ".ret", returns.map ValueDecl.ty, false⟩

instance : Decidable (FindsReturn s name returns) :=
  inferInstanceAs (Decidable (_ ∨ _))

/-- The struct for several returned values, under a name that is free. -/
def freshReturn (s : TyStore) (name : String) (returns : List ValueDecl) : StructDef :=
  ⟨s.freshName (name ++ ".ret"), returns.map ValueDecl.ty, false⟩

theorem returnStruct_run (name : String) (returns : List ValueDecl) (s : TyStore) :
    (returnStruct name (returns.map ValueDecl.ty)).run.run s =
      if s.find? (name ++ ".ret") = some ⟨name ++ ".ret", returns.map ValueDecl.ty, false⟩ then
        (.ok (.struct (name ++ ".ret") (returns.map ValueDecl.ty) false), s)
      else (.ok (freshReturn s name returns).ty, s.add (freshReturn s name returns)) := by
  unfold returnStruct
  rw [run_bind_ok (rfl : (get : RecordReading TyStore).run.run s = (.ok s, s))]
  dsimp only
  split <;> rfl

theorem returnTy_few (name : String) (few : returns.length < 2) : ∃ ret, returnTy name returns = pure ret := by
  match returns with
  | [] => exact ⟨_, rfl⟩
  | [value] => exact ⟨_, rfl⟩

theorem returnTy_several (several : ¬returns.length < 2) :
    returnTy name returns = returnStruct name (returns.map ValueDecl.ty) := by
  match returns with
  | [] | [value] => simp at several
  | first :: second :: rest => rfl

/-- The struct is found again unless another one had the name first: that one keeps it. -/
theorem returnTy_again (read : (returnTy name returns).run.run s = (.ok ret, t)) : s.Grows t ∧ ∀ u, t.Grows u →
    (FindsReturn t name returns → (returnTy name returns).run.run u = (.ok ret, u)) ∧
    (¬FindsReturn t name returns → (returnTy name returns).run.run u =
      (.ok (freshReturn u name returns).ty, u.add (freshReturn u name returns))) := by
  by_cases few : returns.length < 2
  · obtain ⟨ty, same⟩ := returnTy_few name few
    rw [same] at read ⊢
    cases read
    exact ⟨.refl s, fun u later => ⟨fun _ => rfl, fun lost => absurd (.inl few) lost⟩⟩
  · rw [returnTy_several few, returnStruct_run] at read
    rw [returnTy_several few]
    by_cases own : s.find? (name ++ ".ret") = some ⟨name ++ ".ret", returns.map ValueDecl.ty, false⟩
    · rw [if_pos own] at read
      cases read
      refine ⟨.refl s, fun u later => ⟨fun _ => ?_, fun lost => absurd (.inr own) lost⟩⟩
      rw [returnStruct_run, if_pos (later _ _ own)]
    · rw [if_neg own] at read
      cases read
      refine ⟨grows_add _ _, fun u later => ?_⟩
      cases held : s.find? (name ++ ".ret") with
      | none =>
        have base := freshName_of_free held
        have own : (s.add (freshReturn s name returns)).find? (name ++ ".ret") =
            some ⟨name ++ ".ret", returns.map ValueDecl.ty, false⟩ := by
          simp [freshReturn, base, find?_add, held]
        refine ⟨fun _ => ?_, fun lost => absurd (.inr own) lost⟩
        rw [returnStruct_run, if_pos (later _ _ own), freshReturn, base]
        rfl
      | some other =>
        -- The name is never free again, and the struct under the fresh one is not looked for.
        have kept := grows_add s (freshReturn s name returns) _ _ held
        rw [held] at own
        refine ⟨fun finds => ?_, fun _ => ?_⟩
        · exact absurd (kept.symm.trans (finds.resolve_left few)) own
        · rw [returnStruct_run, if_neg]
          rwa [later _ _ kept]

theorem decl_again (read : r.decl.run.run s = (.ok d, t)) : ∃ before, s.Grows before ∧
    (returnTy r.name d.returns).run.run before = (.ok d.signature.ret, t) ∧
    ∀ u ret v, before.Grows u → (returnTy r.name d.returns).run.run u = (.ok ret, v) →
      r.decl.run.run u = (.ok (d.returning ret), v) := by
  unfold decl at read
  obtain ⟨params, s₁, read₁, read⟩ := ran_bind read
  obtain ⟨returns, s₂, read₂, read⟩ := ran_bind read
  obtain ⟨returnAddress, s₃, read₃, read⟩ := ran_bind read
  obtain ⟨ret, s₄, read₄, read⟩ := ran_bind read
  cases read
  obtain ⟨grows₁, again₁⟩ := Settles.mapM ParameterRecord.settles r.parameters _ _ _ read₁
  obtain ⟨grows₂, again₂⟩ := Settles.mapM ValueRecord.settles r.returnValues _ _ _ read₂
  obtain ⟨grows₃, again₃⟩ := r.returnAddress.settles _ _ _ read₃
  refine ⟨s₃, grows₁.trans (grows₂.trans grows₃), read₄, fun u ret' v later made => ?_⟩
  unfold decl
  rw [run_bind_ok (again₁ u (grows₂.trans (grows₃.trans later))), run_bind_ok (again₂ u (grows₃.trans later)),
    run_bind_ok (again₃ u later), run_bind_ok made]
  rfl

/-- A record that was read is read again in any store that has grown since. It gives the same, and declares nothing more,
exactly if the struct for several returned values has the name that it is looked up by. If another struct has that name,
each reading declares one struct more and returns that. -/
theorem reading_again (read : r.decl.run.run s = (.ok d, t)) (grows : t.Grows u) :
    (r.decl.run.run u = (.ok d, u) ↔ FindsReturn t r.name d.returns) ∧
      (¬FindsReturn t r.name d.returns → u.find? (freshReturn u r.name d.returns).name = none ∧
        r.decl.run.run u = (.ok (d.returning (freshReturn u r.name d.returns).ty), u.add (freshReturn u r.name d.returns))) := by
  obtain ⟨before, -, made, again⟩ := decl_again read
  obtain ⟨grown, finds⟩ := returnTy_again made
  have other (lost : ¬FindsReturn t r.name d.returns) := again u _ _ (grown.trans grows) ((finds u grows).2 lost)
  refine ⟨⟨fun same => ?_, fun own => again u _ _ (grown.trans grows) ((finds u grows).1 own)⟩, fun lost => ⟨?_, other lost⟩⟩
  · by_contra lost
    rw [other lost] at same
    have length := congrArg (fun out => out.2.structs.length) same
    simp [add] at length
  · exact find?_eq_none_iff.mpr (FreshName.choose_notMem (r.name ++ ".ret") u.names)

/-- A function that returns two values. -/
def halves : FunctionRecord where
  address := 16
  name := "f"
  parameters := []
  returnValues := [⟨"i64", some "RAX", none⟩, ⟨"i64", some "RDX", none⟩]
  returnAddress := ⟨"i64", none, some ⟨"RSP", 0⟩⟩
  returnStackPointer := ⟨"RSP", 8⟩
  redzone := 128
  isVariadic := false
  isNoreturn := false

def halvesReturning (ret : Ty) : FunctionDecl where
  address := 16
  signature := ⟨"f", .external, [], ret, none, false, false⟩
  params := []
  returns := [.inRegister "RAX" .i64, .inRegister "RDX" .i64]
  returnAddress := .inMemory "RSP" 0 .i64
  returnStackPointer := "RSP"
  returnStackPointerOffset := 8
  redzone := 128

theorem halves_foundAgain :
    let ret : StructDef := ⟨"f.ret", [.i64, .i64], false⟩
    halves.decl.run.run .empty = (.ok (halvesReturning ret.ty), ⟨[ret]⟩) ∧
      halves.decl.run.run ⟨[ret]⟩ = (.ok (halvesReturning ret.ty), ⟨[ret]⟩) := by
  intro ret
  have read : halves.decl.run.run .empty = (.ok (halvesReturning ret.ty), ⟨[ret]⟩) := by cbv
  exact ⟨read, (reading_again read (.refl _)).1.mpr (by decide)⟩

/-- Each reading declares a struct, where another one has the name of theirs. -/
theorem halves_declaredAgain :
    let taken : StructDef := ⟨"f.ret", [.i8], false⟩
    let first : StructDef := ⟨"f.ret.1", [.i64, .i64], false⟩
    let second : StructDef := ⟨"f.ret.2", [.i64, .i64], false⟩
    halves.decl.run.run ⟨[taken]⟩ = (.ok (halvesReturning first.ty), ⟨[taken, first]⟩) ∧
      halves.decl.run.run ⟨[taken, first]⟩ = (.ok (halvesReturning second.ty), ⟨[taken, first, second]⟩) ∧
      halvesReturning first.ty ≠ halvesReturning second.ty := by
  refine ⟨by cbv, by cbv, by decide⟩

end FunctionRecord

end VarRecovery
