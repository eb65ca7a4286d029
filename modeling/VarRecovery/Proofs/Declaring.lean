import Mathlib
import VarRecovery.Calling.Record
import VarRecovery.Proofs.FreshName
import VarRecovery.Recovery

/-!
Recovery and the readers of records declare structs and variables. Here a program ends at once if it declares a
name that is in use, which it never does: the new names are free, and what is read is looked up before.
-/

set_option autoImplicit false

namespace VarRecovery

/-- What ends a program at once: a name that is in use is declared again. -/
inductive NameClash where
  | struct (redefinition : Redefinition)
  | symbol (duplicate : DuplicateSymbol)

namespace NameClash

def message : NameClash → String
  | .struct redefinition => redefinition.message
  | .symbol duplicate => duplicate.message

end NameClash

/-- Steps that end at once if a name is declared again. -/
abbrev Declaring (m : Type → Type) (α : Type) := ExceptT NameClash m α

namespace Declaring

variable {m : Module} {t : EntityTable}

/-- A step of recovery that declares nothing. -/
def step {α : Type} (x : Recovering α) : Declaring Recovering α :=
  ExceptT.lift x

/-! ### Declarations -/

def addFresh (s : TyStore) (base : String) (fields : List Ty) (packed : Bool) : Except NameClash (TyStore × Ty) :=
  (s.declare ⟨s.freshName base, fields, packed⟩).mapError .struct

def pushGlobal (m : Module) (v : GlobalVar) : Except NameClash (Module × GlobalId) :=
  (m.addGlobal v).mapError .symbol

theorem addFresh_eq (s : TyStore) (base : String) (fields : List Ty) (packed : Bool) :
    addFresh s base fields packed = .ok (s.addFresh base fields packed) := by
  have free : s.find? (s.freshName base) = none := by
    simp only [TyStore.find?, List.find?_eq_none, decide_eq_true_eq]
    intro d declared same
    exact FreshName.choose_notMem base s.names (List.mem_map.mpr ⟨d, declared, same⟩)
  simp [addFresh, TyStore.declare, free, TyStore.addFresh, Except.mapError]

theorem pushGlobal_eq {v : GlobalVar} (free : m.findGlobal? v.symbol = none) :
    pushGlobal m v = .ok (m.pushGlobal v) := by
  simp [pushGlobal, Module.addGlobal, free, Except.mapError]

theorem findGlobal?_freshSymbol (m : Module) (base : String) : m.findGlobal? (m.freshSymbol base) = none := by
  have free := FreshName.choose_notMem base m.symbols
  rw [Module.findGlobal?, Option.map_eq_none_iff, Array.findIdx?_eq_none_iff]
  intro v declared
  simp only [decide_eq_false_iff_not]
  intro same
  exact free (List.mem_map.mpr ⟨v, Array.mem_toList_iff.mpr declared, same⟩)

/-! ### Recovery -/

def retype (r : Run) (m : Module) (t : EntityTable) (id : GlobalId) (v : GlobalVar) :
    Except NameClash (Module × EntityTable × List Warning) := do
  if (m.layout.allocSize? v.ty).getD 0 < r.size then
    let (types, ty) ← addFresh m.types (v.symbol ++ ".ty") r.fields.types (r.isPacked m.layout)
    return (({ m with types }).setGlobalTy id ty, t.resize r.fields.start r.size,
      [.retyped v.symbol r.size v.ty.shown])
  else return (m, t, [])

def create (r : Run) (m : Module) (t : EntityTable) :
    Except NameClash (Module × EntityTable × Bool × List Warning) := do
  let (types, ty) ← addFresh m.types (r.symbol ++ ".ty") r.fields.types (r.isPacked m.layout)
  let (m, id) ← pushGlobal { m with types } ⟨m.freshSymbol r.symbol, ty, .internal, false⟩
  let (t, created, warnings) := t.insertVar m r.fields.start id r.size
  return (m, t, created, warnings)

def declareRun (r : Run) (m : Module) (t : EntityTable) :
    Except NameClash (Module × EntityTable × Bool × List Warning) := do
  match t.get? r.fields.start with
  | some (.func _) => return (m, t, false, [])
  | some (.var id) =>
    match m.global? id with
    | some v =>
      let (m, t, warnings) ← retype r m t id v
      return (m, t, false, warnings)
    | none => return (m, t, false, [])
  | none => if r.isCovered t then return (m, t, false, []) else create r m t

def declareAll : List Run → Module → EntityTable → Except NameClash (Module × EntityTable × Nat × List Warning)
  | [], m, t => return (m, t, 0, [])
  | r :: rs, m, t => do
    let (m, t, created, warnings) ← declareRun r m t
    let (m, t, count, rest) ← declareAll rs m t
    return (m, t, count + created.toNat, warnings ++ rest)

def buildGlobals (m : Module) (t : EntityTable) (cells : List Cell) (cursor : EntryCursor) :
    Declaring Recovering (Module × EntityTable × EntryCursor × BuiltGlobals) := do
  let cells := Cell.sort (.ofTable m t cells) m.layout cells
  let runs ← step (Run.ofCells m.layout cells)
  let (m, t, created, warnings) ← declareAll runs m t
  step (Recovering.warnAll warnings)
  let s ← step (GlobalRedirection.redirectAll t cells ⟨m, cursor, [], [], []⟩)
  return (s.module, t, s.cursor, ⟨created, s.pointers⟩)

def buildFrame (m : Module) (f : FuncId) (cells : List Cell) (stackPointer : Option Nat) (redzone : Nat)
    (cursor : EntryCursor) : Declaring Recovering (Module × EntryCursor × Frame) := do
  let name := m.funcName f
  match stackPointer with
  | none => step (throw (.missingStackPointer name))
  | some stackPointer =>
    let cells := Cell.sort (.ofCells cells) m.layout cells
    let layout ← step (FrameLayout.ofCells m.layout cells stackPointer redzone)
    let (types, ty) ← addFresh m.types (name ++ ".frame") layout.fields.types true
    let m := { m with types }
    let (m, cursor, frame) ← step (cursor.insert m f (.alloca ty) (.ptr ty))
    let (m, cursor, bytes) ← step (cursor.insert m f (.cast .bitcast frame (.ptr .i8)) (.ptr .i8))
    let s ← step (FrameRedirection.redirectAll f layout.base bytes cells ⟨m, cursor, [], [frame]⟩)
    return (s.module, s.cursor, ⟨ty, s.pointers⟩)

def buildFrames (image : Image) (redzone : Nat) :
    List (FuncId × List Cell) → Module → EntryCursor → Frontier →
      Declaring Recovering (Module × EntryCursor × Frontier)
  | [], m, cursor, fr => return (m, cursor, fr)
  | (f, cells) :: rest, m, cursor, fr => do
    let (m, cursor, frame) ← buildFrame m f cells image.stackPointer redzone cursor
    buildFrames image redzone rest m cursor (fr.insertAll (frame.pointers.map (f, ·)))

def declareVariable (m : Module) (d : VariableDecl) : Except NameClash (Module × GlobalId) :=
  match m.findGlobal? d.name with
  | some id => .ok (m, id)
  | none => pushGlobal m ⟨d.name, d.ty, .external, false⟩

def declareImage (m : Module) (image : Image) :
    Except NameClash (Module × List (Nat × FuncId) × List (Nat × GlobalId)) := do
  let (m, funcs) := image.funcs.foldl (fun (m, fs) d =>
    let (m, f) := m.declareFunction d
    (m, fs ++ [(d.address, f)])) (m, [])
  let (m, vars) ← image.vars.foldlM (fun (m, vs) d => do
    let (m, v) ← declareVariable m d
    return (m, vs ++ [(d.address, v)])) (m, [])
  return (m, funcs, vars)

def placeImage (m : Module) (image : Image) : Declaring Recovering (Module × EntityTable) := do
  let (m, funcs, vars) ← declareImage m image
  let (t, warnings) := funcs.foldl (fun (t, ws) (address, f) =>
    let (t, new) := t.insertFunc m address f
    (t, ws ++ new)) (EntityTable.empty, [])
  step (Recovering.warnAll warnings)
  let t ← step (vars.foldlM m.placeVariable t)
  return (m, t)

def recover (m : Module) (image : Image) (config : RecoveryConfig) : Declaring Recovering Recovered := do
  let (m, t) ← placeImage m image
  let (m, cells) ← step (m.collect image config.intrinsicStart)
  let (m, cursor, fr) ← buildFrames image config.redzone cells.stack m .start .empty
  let (m, t, _, globals) ← buildGlobals m t cells.globals cursor
  let lowering ← step (m.lower config.intrinsicStart)
  let m := lowering.module
  let fr := ((fr.insertAll globals.pointers).insertAll lowering.pointers).insertAll
    (m.entityPointers t)
  let simplified := m.simplifyPointers fr config.maxRounds
  step (Recovering.warnAll simplified.warnings)
  return {
    module := simplified.module
    cells := cells.size
    frames := cells.stack.length
    globalsCreated := globals.created
    intrinsicsLowered := lowering.lowered
    changes := simplified.changes }

theorem retype_eq (r : Run) (id : GlobalId) (v : GlobalVar) : retype r m t id v = .ok (r.retype m t id v) := by
  unfold retype Run.retype
  simp only [addFresh_eq]
  split <;> rfl

theorem create_eq (r : Run) : create r m t = .ok (r.create m t) := by
  have pushed (types : TyStore) (v : GlobalVar) (named : v.symbol = m.freshSymbol r.symbol) :
      pushGlobal { m with types } v = .ok (({ m with types } : Module).pushGlobal v) :=
    pushGlobal_eq (by rw [named]; exact findGlobal?_freshSymbol m r.symbol)
  simp only [create, Run.create, addFresh_eq, bind, Except.bind]
  rw [pushed _ _ rfl]
  rfl

theorem declareRun_eq (r : Run) : declareRun r m t = .ok (r.declare m t) := by
  unfold declareRun Run.declare
  cases t.get? r.fields.start with
  | none =>
    simp only [create_eq]
    split <;> rfl
  | some entity =>
    cases entity with
    | func => rfl
    | var id =>
      cases found : m.global? id with
      | none => simp only [found]; rfl
      | some v => simp only [found, retype_eq]; rfl

theorem declareAll_eq (rs : List Run) : declareAll rs m t = .ok (Run.declareAll rs m t) := by
  induction rs generalizing m t with
  | nil => rfl
  | cons r rs ih =>
    simp only [declareAll, declareRun_eq, bind, Except.bind, ih]
    rfl

theorem step_bind {α β : Type} (x : Recovering α) (f : α → Recovering β) :
    step (x >>= f) = step x >>= fun a => step (f a) :=
  liftM_bind (m := Recovering) (n := Declaring Recovering) x f

theorem buildGlobals_eq (cells : List Cell) (cursor : EntryCursor) :
    buildGlobals m t cells cursor = step (m.buildGlobals t cells cursor) := by
  simp only [buildGlobals, Module.buildGlobals, declareAll_eq, step_bind]
  rfl

theorem buildFrame_eq (f : FuncId) (cells : List Cell) (stackPointer : Option Nat) (redzone : Nat)
    (cursor : EntryCursor) :
    buildFrame m f cells stackPointer redzone cursor = step (m.buildFrame f cells stackPointer redzone cursor) := by
  cases stackPointer with
  | none => rfl
  | some stackPointer =>
    simp only [buildFrame, Module.buildFrame, addFresh_eq, step_bind]
    rfl

theorem buildFrames_eq (image : Image) (redzone : Nat) (frames : List (FuncId × List Cell)) (cursor : EntryCursor)
    (fr : Frontier) :
    buildFrames image redzone frames m cursor fr = step (Module.buildFrames image redzone frames m cursor fr) := by
  induction frames generalizing m cursor fr with
  | nil => rfl
  | cons frame frames ih => simp only [buildFrames, Module.buildFrames, buildFrame_eq, ih, step_bind]

theorem declareVariable_eq (d : VariableDecl) : declareVariable m d = .ok (m.declareVariable d) := by
  cases found : m.findGlobal? d.name with
  | some id => simp only [declareVariable, Module.declareVariable, found]
  | none =>
    simp only [declareVariable, Module.declareVariable, found]
    exact pushGlobal_eq found

theorem declareImage_eq (image : Image) : declareImage m image = .ok (m.declareImage image) := by
  simp only [declareImage, Module.declareImage, declareVariable_eq]
  have all (start : Module × List (Nat × GlobalId)) : image.vars.foldlM (m := Except NameClash) (fun (m, vs) d => do
      let (m, v) ← Except.ok (m.declareVariable d)
      return (m, vs ++ [(d.address, v)])) start =
      .ok (image.vars.foldl (fun (m, vs) d =>
        let (m, v) := m.declareVariable d
        (m, vs ++ [(d.address, v)])) start) := List.foldlM_pure
  simp only [all]
  rfl

theorem placeImage_eq (image : Image) : placeImage m image = step (m.placeImage image) := by
  simp only [placeImage, Module.placeImage, declareImage_eq, step_bind]
  rfl

/-- Recovery never ends for a name. -/
theorem recover_eq (image : Image) (config : RecoveryConfig) :
    recover m image config = step (m.recover image config) := by
  simp only [recover, Module.recover, placeImage_eq, buildFrames_eq, buildGlobals_eq, step_bind]
  rfl

/-! ### Reading -/

def declareStruct (d : StructDef) : Declaring Ty.Reading Ty := do
  let store ← get
  match store.find? d.name with
  | some known => if known = d then return known.ty else ExceptT.lift (throw (.conflictingStruct d.name))
  | none =>
    match store.declare d with
    | .ok (store, ty) =>
      set store
      return ty
    | .error redefinition => throw (.struct redefinition)

mutual

def resolve (text : String) : Ty.Expr → Declaring Ty.Reading Ty
  | .scalar ty => pure ty
  | .ptr pointee => do return .ptr (← resolve text pointee)
  | .array elem len => do
    let elem ← resolve text elem
    return .array elem (← ExceptT.lift (Ty.readLength text len))
  | .vector elem len => do
    let elem ← resolve text elem
    return .vector elem (← ExceptT.lift (Ty.readLength text len))
  | .func args ret => do
    let args ← resolveList text args
    return .func args (← resolve text ret)
  | .reference name => ExceptT.lift (Ty.lookUp (String.ofList name))
  | .struct name fields packed => do
    let fields ← resolveList text fields
    declareStruct ⟨String.ofList name, fields, packed⟩

def resolveList (text : String) : List Ty.Expr → Declaring Ty.Reading (List Ty)
  | [] => pure []
  | e :: es => do
    let ty ← resolve text e
    return ty :: (← resolveList text es)

end

def ofText (text : String) : Declaring Ty.Reading Ty :=
  match Ty.Expr.ofChars? text.toList with
  | none => ExceptT.lift (throw .ungrammatical)
  | some e => resolve text e

def readTy (text : String) : Declaring RecordReading Ty :=
  ExceptT.mk ((ofText text).run.adapt .ty)

def valueDecl (r : ValueRecord) : Declaring RecordReading ValueDecl :=
  match r.location? with
  | none => ExceptT.lift (throw .ambiguousLocation)
  | some location => do return ⟨← readTy r.ty, location⟩

def parameterDecl (r : ParameterRecord) : Declaring RecordReading ParameterDecl := do
  return ⟨r.name, ← valueDecl r.value⟩

def returnStruct (name : String) (fields : List Ty) : Declaring RecordReading Ty := do
  let store ← get
  let base := name ++ ".ret"
  let known : StructDef := ⟨base, fields, false⟩
  if store.find? base = some known then return known.ty
  else
    let (store, ty) ← addFresh store base fields false
    set store
    return ty

def returnTy (name : String) : List ValueDecl → Declaring RecordReading Ty
  | [] => pure .unit
  | [value] => pure value.ty
  | values => returnStruct name (values.map ValueDecl.ty)

def functionDecl (r : FunctionRecord) : Declaring RecordReading FunctionDecl := do
  let params ← r.parameters.mapM parameterDecl
  let returns ← r.returnValues.mapM valueDecl
  let returnAddress ← valueDecl r.returnAddress
  let ret ← returnTy r.name returns
  return {
    address := r.address
    signature := {
      name := r.name
      linkage := .external
      args := params.map (·.value.ty)
      ret
      structRet := none
      isVariadic := r.isVariadic
      isNoreturn := r.isNoreturn }
    params, returns, returnAddress
    returnStackPointer := r.returnStackPointer.register
    returnStackPointerOffset := r.returnStackPointer.offset
    redzone := r.redzone }

def variableDecl (r : VariableRecord) : Declaring RecordReading VariableDecl := do
  return ⟨r.name, ← readTy r.ty, r.address⟩

theorem lift_bind {m : Type → Type} [Monad m] [LawfulMonad m] {α β : Type} (x : m α) (f : α → m β) :
    (ExceptT.lift (x >>= f) : Declaring m β) = ExceptT.lift x >>= fun a => ExceptT.lift (f a) :=
  liftM_bind (m := m) (n := Declaring m) x f

theorem lift_pure {m : Type → Type} [Monad m] [LawfulMonad m] {α : Type} (a : α) :
    (ExceptT.lift (pure a) : Declaring m α) = pure a :=
  liftM_pure (m := m) (n := Declaring m) a

/-- Steps that begin with a look at the store are equal if they are for each store that they can see. -/
theorem get_bind_congr {α : Type} {f g : TyStore → Declaring Ty.Reading α}
    (same : ∀ store, f store store = g store store) : (get >>= f) = (get >>= g) :=
  funext same

/-- A struct is looked up before it is declared, so its name is free then. -/
theorem declareStruct_eq (d : StructDef) : declareStruct d = ExceptT.lift (Ty.declare d) := by
  simp only [declareStruct, Ty.declare, lift_bind]
  refine get_bind_congr fun store => ?_
  cases found : store.find? d.name with
  | none =>
    simp only [TyStore.declare, found]
    rfl
  | some known =>
    simp only [TyStore.declare, found]
    split <;> rfl

mutual

theorem resolve_eq (text : String) : (e : Ty.Expr) → resolve text e = ExceptT.lift (e.resolve text)
  | .scalar ty => rfl
  | .ptr pointee => by simp only [resolve, Ty.Expr.resolve, resolve_eq text pointee, lift_bind, lift_pure]
  | .array elem len => by simp only [resolve, Ty.Expr.resolve, resolve_eq text elem, lift_bind, lift_pure]
  | .vector elem len => by simp only [resolve, Ty.Expr.resolve, resolve_eq text elem, lift_bind, lift_pure]
  | .func args ret => by
    simp only [resolve, Ty.Expr.resolve, resolveList_eq text args, resolve_eq text ret, lift_bind, lift_pure]
  | .reference name => rfl
  | .struct name fields packed => by
    simp only [resolve, Ty.Expr.resolve, resolveList_eq text fields, declareStruct_eq, lift_bind]

theorem resolveList_eq (text : String) : (es : List Ty.Expr) →
    resolveList text es = ExceptT.lift (Ty.Expr.resolveList text es)
  | [] => rfl
  | e :: es => by
    simp only [resolveList, Ty.Expr.resolveList, resolve_eq text e, resolveList_eq text es, lift_bind, lift_pure]

end

theorem ofText_eq (text : String) : ofText text = ExceptT.lift (Ty.ofText text) := by
  cases parsed : Ty.Expr.ofChars? text.toList with
  | none => simp only [ofText, Ty.ofText, parsed]
  | some e => simp only [ofText, Ty.ofText, parsed, resolve_eq]

theorem readTy_eq (text : String) : readTy text = ExceptT.lift (RecordReading.readTy text) := by
  rw [readTy, ofText_eq, RecordReading.readTy]
  generalize Ty.ofText text = reading
  funext store
  change (_ : Except RecordError (Except NameClash Ty) × TyStore) = _
  cases ran : reading store with
  | mk result after =>
    simp only [ExceptT.lift, ExceptT.mk, ExceptT.run, ExceptT.adapt, Functor.map, ExceptT.map, StateT.map, bind,
      StateT.bind, ran, pure]
    cases result <;> rfl

theorem valueDecl_eq (r : ValueRecord) : valueDecl r = ExceptT.lift r.decl := by
  cases located : r.location? with
  | none => simp only [valueDecl, ValueRecord.decl, located]
  | some location => simp only [valueDecl, ValueRecord.decl, located, readTy_eq, lift_bind, lift_pure]

theorem returnStruct_eq (name : String) (fields : List Ty) :
    returnStruct name fields = ExceptT.lift (FunctionRecord.returnStruct name fields) := by
  simp only [returnStruct, FunctionRecord.returnStruct, addFresh_eq, lift_bind]
  refine bind_congr fun store => ?_
  split
  · rfl
  · rfl

theorem returnTy_eq (name : String) (values : List ValueDecl) :
    returnTy name values = ExceptT.lift (FunctionRecord.returnTy name values) := by
  match values with
  | [] | [_] => rfl
  | _ :: _ :: _ => exact returnStruct_eq name _

theorem mapM_lift {m : Type → Type} [Monad m] [LawfulMonad m] {α β : Type} (f : α → m β) (xs : List α) :
    (xs.mapM fun x => (ExceptT.lift (f x) : Declaring m β)) = ExceptT.lift (xs.mapM f) := by
  induction xs with
  | nil => simp only [List.mapM_nil, lift_pure]
  | cons x xs ih => simp only [List.mapM_cons, ih, lift_bind, lift_pure]

theorem functionDecl_eq (r : FunctionRecord) : functionDecl r = ExceptT.lift r.decl := by
  have params : parameterDecl = fun r => ExceptT.lift r.decl := by
    funext r
    simp only [parameterDecl, ParameterRecord.decl, valueDecl_eq, lift_bind, lift_pure]
  have values : valueDecl = fun r => ExceptT.lift r.decl := funext valueDecl_eq
  simp only [functionDecl, FunctionRecord.decl, params, values, mapM_lift, returnTy_eq, lift_bind, lift_pure]

theorem variableDecl_eq (r : VariableRecord) : variableDecl r = ExceptT.lift r.decl := by
  simp only [variableDecl, VariableRecord.decl, readTy_eq, lift_bind, lift_pure]

/-- A function is declared without a struct or a variable. -/
theorem declareFunction_names (m : Module) (d : FunctionDecl) :
    (m.declareFunction d).1.types = m.types ∧ (m.declareFunction d).1.globals = m.globals := by
  unfold Module.declareFunction Module.declareFunc
  split <;> exact ⟨rfl, rfl⟩

/-- Recovery, the readers of spellings and records, and the declarations of a module never end for a name, whether
they succeed or fail, and the name that is made from a base is the first one that is free. -/
theorem never_clashes :
    (∀ m image config, recover m image config = step (m.recover image config)) ∧
    (∀ text, ofText text = ExceptT.lift (Ty.ofText text)) ∧
    (∀ r, functionDecl r = ExceptT.lift (FunctionRecord.decl r)) ∧
    (∀ r, variableDecl r = ExceptT.lift (VariableRecord.decl r)) ∧
    (∀ m d, declareVariable m d = .ok (m.declareVariable d)) ∧
    (∀ (m : Module) d, (m.declareFunction d).1.types = m.types ∧ (m.declareFunction d).1.globals = m.globals) ∧
    (∀ (s : TyStore) base, ∃ n, s.freshName base = FreshName.candidate base n ∧
      FreshName.candidate base n ∉ s.names ∧ ∀ k < n, FreshName.candidate base k ∈ s.names) ∧
    (∀ (m : Module) base, ∃ n, m.freshSymbol base = FreshName.candidate base n ∧
      FreshName.candidate base n ∉ m.symbols ∧ ∀ k < n, FreshName.candidate base k ∈ m.symbols) :=
  ⟨fun _ image config => recover_eq image config, ofText_eq, functionDecl_eq, variableDecl_eq, fun _ => declareVariable_eq,
    declareFunction_names, fun s base => FreshName.choose_first base s.names,
    fun m base => FreshName.choose_first base m.symbols⟩

end Declaring

end VarRecovery
