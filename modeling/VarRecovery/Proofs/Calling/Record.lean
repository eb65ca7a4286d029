import VarRecovery.Calling.Record
import VarRecovery.Proofs.Ty.Reading

/-!
Records read back. The types of a declaration are read one after another into a store that grows, and what one of
them declares is what the others mean by its names.
-/

set_option autoImplicit false

namespace VarRecovery

namespace TyStore

variable {s t u : TyStore}

/-- What was declared stays declared. -/
def Grows (s t : TyStore) : Prop :=
  ∀ name d, s.find? name = some d → t.find? name = some d

theorem Grows.refl (s : TyStore) : s.Grows s :=
  fun _ _ found => found

theorem Grows.trans (first : s.Grows t) (second : t.Grows u) : s.Grows u :=
  fun name d found => second name d (first name d found)

theorem grows_extend (s : TyStore) (ds : List StructDef) : s.Grows (s.extend ds) := by
  intro name d found
  rw [find?_extend, found]
  rfl

theorem grows_add (s : TyStore) (d : StructDef) : s.Grows (s.add d) := by
  intro name e found
  rw [find?_add, found]
  rfl

theorem Holds.grow {ty : Ty} (holds : s.Holds ty) (grows : s.Grows t) : t.Holds ty :=
  ⟨fun d member => grows d.name d (holds.structs d member), holds.lengths⟩

/-- The names of the structs in a type are free, or stand for structs with the same spelled bodies, made of structs
with words for names. -/
def Knows (t : TyStore) (ty : Ty) : Prop :=
  ∀ d ∈ ty.structs, t.find? d.name = none ∨
    ∃ e, t.find? d.name = some e ∧ e.ty.spelled = d.ty.spelled ∧ Ty.Named e.ty.structs

end TyStore

namespace Ty

open TyStore

variable {S T : TyStore} {ds : List StructDef} {ty : Ty}

theorem structsList_append (as bs : List Ty) : structsList (as ++ bs) = structsList as ++ structsList bs := by
  induction as with
  | nil => rfl
  | cons a as ih => rw [List.cons_append, structsList, structsList, ih, List.append_assoc]

theorem mem_structsList {tys : List Ty} {d : StructDef} : d ∈ structsList tys ↔ ∃ ty ∈ tys, d ∈ ty.structs := by
  induction tys with
  | nil => simp [structsList]
  | cons ty tys ih => simp [structsList, ih]

/-- What is read of a type of a store, where its structs are among some that the names agree on. -/
theorem read_among (named : Named ds) (consistent : Consistent ds) (fits : Fits ty.lengths)
    (among : ∀ d ∈ ty.structs, d ∈ ds) (agrees : T.Agrees ds) :
    Ty.read ty.spelled T = (.ok ty, T.extend ty.structs) :=
  read_eq (fun d member => named d (among d member))
    (fun d one e other => consistent d (among d one) e (among e other)) fits fun d member => agrees d (among d member)

/-- The structs of types of one store, and the names that they have. -/
theorem structs_of_holds (words : Named S.structs) {tys : List Ty} (holds : ∀ ty ∈ tys, S.Holds ty) :
    Named (structsList tys) ∧ Consistent (structsList tys) ∧ S.Agrees (structsList tys) := by
  have known {d : StructDef} (member : d ∈ structsList tys) : S.find? d.name = some d := by
    obtain ⟨ty, inside, here⟩ := mem_structsList.mp member
    exact (holds ty inside).structs d here
  refine ⟨fun d member => words d (List.mem_of_find?_eq_some (known member)), fun d one e other same => ?_,
    fun d member => .inr (known member)⟩
  have found := known one
  rw [same, known other] at found
  exact (Option.some.inj found).symm

/-- A store that knows types of another by their spellings has the same structs for their names. -/
theorem agrees_of_knows {tys : List Ty} (named : Named (structsList tys)) (knows : ∀ ty ∈ tys, T.Knows ty) :
    T.Agrees (structsList tys) := by
  intro d member
  obtain ⟨ty, inside, here⟩ := mem_structsList.mp member
  refine (knows ty inside d here).imp id fun ⟨e, found, same, wordy⟩ => ?_
  have inner : Named d.ty.structs := fun c deep =>
    named c (mem_structsList.mpr ⟨ty, inside, mem_structs_trans ty here c deep⟩)
  obtain rfl : e = d := StructDef.ty_injective (spelled_injective wordy inner same)
  exact found

end Ty

namespace RecordReading

variable {α β : Type} {s t u : TyStore}

/-- What a step of reading gives, and the store that it leaves. -/
def Reads (x : RecordReading α) (s : TyStore) (a : α) (t : TyStore) : Prop :=
  x.run.run s = (.ok a, t)

theorem reads_pure (a : α) (s : TyStore) : Reads (pure a) s a s := rfl

theorem Reads.bind {x : RecordReading α} {f : α → RecordReading β} {a : α} {b : β} (first : Reads x s a t)
    (next : Reads (f a) t b u) : Reads (x >>= f) s b u := by
  unfold Reads at *
  rw [ExceptT.run_bind, StateT.run_bind, first]
  exact next

theorem reads_ty {text : String} {ty : Ty} (read : Ty.read text s = (.ok ty, t)) : Reads (readTy text) s ty t := by
  have run : (readTy text).run.run s = (Except.mapError RecordError.ty (Ty.read text s).1, (Ty.read text s).2) := rfl
  rw [Reads, run, read]
  rfl

end RecordReading

open TyStore RecordReading
open Ty hiding Reads

variable {S T : TyStore} {ds : List StructDef}

namespace ValueDecl

theorem reads_record (named : Named ds) (consistent : Consistent ds) (d : ValueDecl)
    (among : ∀ c ∈ d.ty.structs, c ∈ ds) (fits : Fits d.ty.lengths) (agrees : T.Agrees ds) :
    Reads d.record.decl T d (T.extend d.ty.structs) := by
  have read := reads_ty (read_among named consistent fits among agrees)
  obtain ⟨ty, location⟩ := d
  cases location <;> exact read.bind (reads_pure _ _)

/-- Declarations are read one after another, and each leaves the store with the structs of its type. -/
theorem reads_mapM {α ρ : Type} (value : α → ValueDecl) (record : α → ρ) (decl : ρ → RecordReading α)
    (one : ∀ a s t, Reads (value a).record.decl s (value a) t → Reads (decl (record a)) s a t) (named : Named ds)
    (consistent : Consistent ds) (xs : List α) (among : ∀ c ∈ structsList (xs.map fun a => (value a).ty), c ∈ ds)
    (fits : ∀ a ∈ xs, Fits (value a).ty.lengths) {T : TyStore} (agrees : T.Agrees ds) :
    Reads ((xs.map record).mapM decl) T xs (T.extend (structsList (xs.map fun a => (value a).ty))) := by
  induction xs generalizing T with
  | nil => exact reads_pure _ _
  | cons a xs ih =>
    rw [List.map_cons, structsList] at among
    obtain ⟨first, others⟩ := List.forall_mem_append.mp among
    obtain ⟨here, rest⟩ := List.forall_mem_cons.mp fits
    rw [List.map_cons, List.mapM_cons, List.map_cons, structsList, extend_append]
    have read := one a T _ (reads_record named consistent (value a) first here agrees)
    exact read.bind ((ih others rest (agrees.extend consistent first)).bind (reads_pure _ _))

end ValueDecl

namespace FunctionRecord

/-- A signature is made in any store, and at most one struct is declared for it. -/
theorem reads_returnTy (name : String) (returns : List ValueDecl) (s : TyStore) :
    ∃ ret t, Reads (returnTy name returns) s ret t ∧ s.Grows t := by
  match returns with
  | [] => exact ⟨.unit, s, rfl, .refl s⟩
  | [value] => exact ⟨value.ty, s, rfl, .refl s⟩
  | first :: second :: rest =>
    let fields := (first :: second :: rest).map ValueDecl.ty
    let known : StructDef := ⟨name ++ ".ret", fields, false⟩
    by_cases there : s.find? (name ++ ".ret") = some known
    · refine ⟨known.ty, s, ?_, .refl s⟩
      have read : Reads (returnStruct name fields) s known.ty s := by
        refine Reads.bind (rfl : Reads (get : RecordReading TyStore) s s s) ?_
        dsimp only
        rw [if_pos there]
        exact reads_pure _ _
      exact read
    · refine ⟨(s.addFresh (name ++ ".ret") fields false).2, (s.addFresh (name ++ ".ret") fields false).1, ?_,
        grows_add s _⟩
      have read : Reads (returnStruct name fields) s (s.addFresh (name ++ ".ret") fields false).2
          (s.addFresh (name ++ ".ret") fields false).1 := by
        refine Reads.bind (rfl : Reads (get : RecordReading TyStore) s s s) ?_
        dsimp only
        rw [if_neg there]
        let t := (s.addFresh (name ++ ".ret") fields false).1
        exact Reads.bind (rfl : Reads (set t : RecordReading PUnit) s ⟨⟩ t) (reads_pure _ _)
      exact read

end FunctionRecord

namespace FunctionDecl

/-- The types that a record spells. -/
def tys (d : FunctionDecl) : List Ty :=
  d.params.map (·.value.ty) ++ d.returns.map ValueDecl.ty ++ [d.returnAddress.ty]

/-- What a record tells of a declaration: all but the signature, and of that the name and the flags. -/
structure Alike (d e : FunctionDecl) : Prop where
  address : e.address = d.address
  name : e.signature.name = d.signature.name
  params : e.params = d.params
  returns : e.returns = d.returns
  returnAddress : e.returnAddress = d.returnAddress
  returnStackPointer : e.returnStackPointer = d.returnStackPointer
  returnStackPointerOffset : e.returnStackPointerOffset = d.returnStackPointerOffset
  redzone : e.redzone = d.redzone
  isVariadic : e.signature.isVariadic = d.signature.isVariadic
  isNoreturn : e.signature.isNoreturn = d.signature.isNoreturn

variable {d e : FunctionDecl}

theorem Alike.record (alike : d.Alike e) : e.record = d.record := by
  simp [FunctionDecl.record, alike.address, alike.name, alike.params, alike.returns, alike.returnAddress,
    alike.returnStackPointer, alike.returnStackPointerOffset, alike.redzone, alike.isVariadic, alike.isNoreturn]

theorem Alike.tys (alike : d.Alike e) : e.tys = d.tys := by
  rw [FunctionDecl.tys, alike.params, alike.returns, alike.returnAddress, FunctionDecl.tys]

/-- A record is read as a declaration like the one it was made from, whose types are declared then. -/
theorem reads_record (named : Named (structsList d.tys)) (consistent : Consistent (structsList d.tys))
    (fits : ∀ ty ∈ d.tys, Fits ty.lengths) (agrees : T.Agrees (structsList d.tys)) :
    ∃ e U, Reads d.record.decl T e U ∧ d.Alike e ∧ (T.extend (structsList d.tys)).Grows U := by
  have structs : structsList d.tys = structsList (d.params.map (·.value.ty)) ++
      structsList (d.returns.map ValueDecl.ty) ++ structsList [d.returnAddress.ty] := by
    rw [tys, structsList_append, structsList_append]
  have inside {ds : List StructDef} (part : ∀ c ∈ ds, c ∈ structsList d.tys) {s : TyStore}
      (agrees : s.Agrees (structsList d.tys)) : (s.extend ds).Agrees (structsList d.tys) :=
    agrees.extend consistent part
  have params_ : ∀ c ∈ structsList (d.params.map (·.value.ty)), c ∈ structsList d.tys := by simp_all
  have returns_ : ∀ c ∈ structsList (d.returns.map ValueDecl.ty), c ∈ structsList d.tys := by simp_all
  have address : ∀ c ∈ d.returnAddress.ty.structs, c ∈ structsList d.tys := by simp_all [structsList]
  have params := ValueDecl.reads_mapM ParameterDecl.value (fun p => ParameterRecord.mk p.name p.value.record)
    ParameterRecord.decl (fun p s t read => read.bind (reads_pure p t)) named consistent d.params params_
    (fun p member => fits _ (by simp [tys]; grind)) agrees
  have returns := ValueDecl.reads_mapM id ValueDecl.record ValueRecord.decl (fun v s t read => read) named consistent
    d.returns returns_ (fun v member => fits _ (by simp [tys]; grind)) (inside params_ agrees)
  have returnAddress := ValueDecl.reads_record named consistent d.returnAddress address (fits _ (by simp [tys]))
    (inside returns_ (inside params_ agrees))
  obtain ⟨ret, U, signature, grows⟩ := FunctionRecord.reads_returnTy d.signature.name d.returns
    (((T.extend (structsList (d.params.map (·.value.ty)))).extend (structsList (d.returns.map ValueDecl.ty))).extend
      d.returnAddress.ty.structs)
  refine ⟨_, U, params.bind (returns.bind (returnAddress.bind (signature.bind (reads_pure _ _)))),
    ⟨rfl, rfl, rfl, rfl, rfl, rfl, rfl, rfl, rfl, rfl⟩, ?_⟩
  rw [structs, extend_append, extend_append]
  simpa [structsList] using grows

end FunctionDecl

/-- Declarations of one store are read from their records into another, if there each name of their structs is free or
stands for a struct with the same spelled body, made of structs with words for names. What is read has the same record;
in the own store it is the same declaration but for the signature, which is made anew from parameters and returned
values. What was declared stays declared. -/
theorem records_read_back (words : Named S.structs) (T : TyStore) :
    (∀ d : ValueDecl, S.Holds d.ty →
      (T.Knows d.ty → ∃ e U, d.record.decl.run.run T = (.ok e, U) ∧ e.record = d.record ∧ U.Holds e.ty ∧ T.Grows U) ∧
      d.record.decl.run.run S = (.ok d, S)) ∧
    (∀ d : VariableDecl, S.Holds d.ty →
      (T.Knows d.ty → ∃ e U, d.record.decl.run.run T = (.ok e, U) ∧ e.record = d.record ∧ U.Holds e.ty ∧ T.Grows U) ∧
      d.record.decl.run.run S = (.ok d, S)) ∧
    ∀ d : FunctionDecl, (∀ ty ∈ d.tys, S.Holds ty) →
      ((∀ ty ∈ d.tys, T.Knows ty) → ∃ e U, d.record.decl.run.run T = (.ok e, U) ∧ e.record = d.record ∧
        (∀ ty ∈ e.tys, U.Holds ty) ∧ T.Grows U) ∧
      ∃ e U, d.record.decl.run.run S = (.ok e, U) ∧ d.Alike e ∧ S.Grows U := by
  -- A value and a variable carry one type, a function a list of them.
  have one {ty : Ty} (holds : S.Holds ty) : Named ty.structs ∧ Consistent ty.structs ∧ S.Agrees ty.structs ∧
      (T.Knows ty → T.Agrees ty.structs) := by
    obtain ⟨named, consistent, agrees⟩ := structs_of_holds words (List.forall_mem_singleton.mpr holds)
    have single : structsList [ty] = ty.structs := by simp [structsList]
    have knows (knows : T.Knows ty) := agrees_of_knows named (List.forall_mem_singleton.mpr knows)
    rw [single] at named consistent agrees knows
    exact ⟨named, consistent, agrees, knows⟩
  refine ⟨fun d holds => ?value, fun d holds => ?variable_, fun d holds => ?function⟩
  case value =>
    obtain ⟨named, consistent, own, other⟩ := one holds
    have read {s : TyStore} (agrees : s.Agrees d.ty.structs) :=
      d.reads_record named consistent (fun _ member => member) holds.lengths agrees
    refine ⟨fun knows => ⟨d, _, read (other knows), rfl, ⟨fun c member => ?_, holds.lengths⟩, grows_extend _ _⟩, ?_⟩
    · exact (other knows).find?_extend consistent (fun _ inside => inside) member
    · have here := read own
      rwa [extend_eq_self holds.structs] at here
  case variable_ =>
    obtain ⟨named, consistent, own, other⟩ := one holds
    have read {s : TyStore} (agrees : s.Agrees d.ty.structs) : Reads d.record.decl s d (s.extend d.ty.structs) :=
      (reads_ty (read_eq named consistent holds.lengths agrees)).bind (reads_pure _ _)
    refine ⟨fun knows => ⟨d, _, read (other knows), rfl, ⟨fun c member => ?_, holds.lengths⟩, grows_extend _ _⟩, ?_⟩
    · exact (other knows).find?_extend consistent (fun _ inside => inside) member
    · have here := read own
      rwa [extend_eq_self holds.structs] at here
  case function =>
    obtain ⟨named, consistent, own⟩ := structs_of_holds words holds
    have fits (ty : Ty) (member : ty ∈ d.tys) := (holds ty member).lengths
    refine ⟨fun knows => ?_, ?_⟩
    · have agrees := agrees_of_knows named knows
      obtain ⟨e, U, read, alike, grows⟩ := FunctionDecl.reads_record named consistent fits agrees
      refine ⟨e, U, read, alike.record, fun ty member => ?_, (grows_extend _ _).trans grows⟩
      rw [alike.tys] at member
      refine Holds.grow ⟨fun c inside => ?_, fits ty member⟩ grows
      exact agrees.find?_extend consistent (fun _ inside => inside) (mem_structsList.mpr ⟨ty, member, inside⟩)
    · obtain ⟨e, U, read, alike, grows⟩ := FunctionDecl.reads_record named consistent fits own
      exact ⟨e, U, read, alike, (grows_extend _ _).trans grows⟩

/-- A function that takes a struct twice and returns two values. -/
def divide : FunctionDecl :=
  let pair := Ty.struct "pair" [.i32, .i8] false
  { address := 4096
    signature := ⟨"divide", .exported, [.ptr pair, pair], .unit, none, false, true⟩
    params := [⟨"of", .ptr pair, .register "RDI"⟩, ⟨"by", pair, .memory "RSP" 8⟩]
    returns := [⟨.i64, .register "RAX"⟩, ⟨.ptr pair, .register "RDX"⟩]
    returnAddress := ⟨.i64, .memory "RSP" 0⟩
    returnStackPointer := "RSP"
    returnStackPointerOffset := 8
    redzone := 128 }

/-- It is read where the name of the struct that it returns is taken by another. -/
theorem divide_reads_back :
    let S : TyStore := ⟨[⟨"pair", [.i32, .i8], false⟩]⟩
    let T : TyStore := ⟨[⟨"divide.ret", [.i8], true⟩]⟩
    let value : ValueDecl := ⟨.struct "pair" [.i32, .i8] false, .memory "RSP" 8⟩
    let var : VariableDecl := ⟨"table", .array (.struct "pair" [.i32, .i8] false) 10, 8192⟩
    (∃ e U, value.record.decl.run.run T = (.ok e, U) ∧ e.record = value.record ∧ U.Holds e.ty ∧ T.Grows U) ∧
    var.record.decl.run.run S = (.ok var, S) ∧
    (∃ e U, divide.record.decl.run.run T = (.ok e, U) ∧ e.record = divide.record ∧ (∀ ty ∈ e.tys, U.Holds ty) ∧
      T.Grows U) ∧
    ∃ e U, divide.record.decl.run.run S = (.ok e, U) ∧ divide.Alike e ∧ S.Grows U := by
  intro S T value var
  obtain ⟨values, vars, functions⟩ := records_read_back (S := S) (by decide) T
  have holds : ∀ ty ∈ divide.tys, S.Holds ty := by
    simp only [divide, FunctionDecl.tys, List.map_cons, List.map_nil, List.cons_append, List.nil_append,
      List.forall_mem_cons]
    exact ⟨⟨by decide, by decide⟩, ⟨by decide, by decide⟩, ⟨by decide, by decide⟩, ⟨by decide, by decide⟩,
      ⟨by decide, by decide⟩, nofun⟩
  have knows : ∀ ty ∈ divide.tys, T.Knows ty := fun ty member d inside =>
    .inl (by
      have all : ∀ ty ∈ divide.tys, ∀ d ∈ ty.structs, T.find? d.name = none := by decide
      exact all ty member d inside)
  refine ⟨(values value ⟨by decide, by decide⟩).1 fun d inside => .inl ?_, (vars var ⟨by decide, by decide⟩).2,
    (functions divide holds).1 knows, (functions divide holds).2⟩
  revert d
  decide

/-- A store that has the struct of a parameter under the same spelling, with one field in the place of two. -/
theorem record_twoFields :
    let b : StructDef := ⟨"b", [], false⟩
    let c : StructDef := ⟨"c", [], false⟩
    let pair : StructDef := ⟨"pair", [b.ty, c.ty], false⟩
    let one : StructDef := ⟨"b\x7b\x7d, @c", [], false⟩
    let other : StructDef := ⟨"pair", [one.ty], false⟩
    let d : FunctionDecl := { divide with params := [⟨"of", pair.ty, .register "RDI"⟩], returns := [] }
    Named [b, c, pair] ∧ (∀ ty ∈ d.tys, TyStore.Holds ⟨[b, c, pair]⟩ ty) ∧
      (∀ ty ∈ d.tys, ∀ d ∈ ty.structs, TyStore.find? ⟨[one, other]⟩ d.name = none ∨
        ∃ e, TyStore.find? ⟨[one, other]⟩ d.name = some e ∧ e.ty.spelled = d.ty.spelled) ∧
      (d.record.decl.run.run ⟨[one, other]⟩).1 = .error (.ty (.conflictingStruct "pair")) := by
  intro b c pair one other d
  have tys : d.tys = [pair.ty, .i64] := rfl
  have structs : pair.ty.structs = [b, c, pair] := rfl
  refine ⟨by decide, ?_, ?_, by cbv⟩
  · simp only [tys, List.forall_mem_cons]
    exact ⟨⟨by decide, by decide⟩, ⟨by decide, by decide⟩, List.forall_mem_nil _⟩
  · simp only [tys, structs, List.forall_mem_cons]
    exact ⟨⟨.inl (by decide), .inl (by decide), .inr ⟨_, rfl, by decide⟩, List.forall_mem_nil _⟩, List.forall_mem_nil _,
      List.forall_mem_nil _⟩

end VarRecovery
