import VarRecovery.Proofs.Code.Form
import VarRecovery.Proofs.Region.EntityTable
import VarRecovery.Proofs.Recovering
import VarRecovery.Recovery

/-!
Placing the entities of an image. What is declared is found by its name from then on, so to declare it again changes
nothing; and where its variables still have a size, they can be placed again.
-/

set_option autoImplicit false

namespace VarRecovery

namespace Module

/-! ### Declaring -/

variable {m n k : Module}

def names (m : Module) : List String :=
  m.funcs.toList.map (·.signature.name)

/-- Functions and variables have the names they had, and more may be declared behind them. -/
structure Declares (m n : Module) : Prop where
  names : m.names <+: n.names
  symbols : m.symbols <+: n.symbols

theorem Declares.refl (m : Module) : m.Declares m :=
  ⟨List.prefix_rfl, List.prefix_rfl⟩

theorem Declares.trans (first : m.Declares n) (second : n.Declares k) : m.Declares k :=
  ⟨first.names.trans second.names, first.symbols.trans second.symbols⟩

theorem findFunc?_eq (m : Module) (name : String) :
    m.findFunc? name = (m.names.findIdx? (· = name)).map FuncId.mk := by
  rw [findFunc?, names, List.findIdx?_map, ← List.findIdx?_toArray, Array.toArray_toList]
  rfl

theorem findGlobal?_eq (m : Module) (symbol : String) :
    m.findGlobal? symbol = (m.symbols.findIdx? (· = symbol)).map GlobalId.mk := by
  rw [findGlobal?, symbols, List.findIdx?_map, ← List.findIdx?_toArray, Array.toArray_toList]
  rfl

theorem findIdx?_of_front {α : Type} {p : α → Bool} {xs ys : List α} (front : xs <+: ys) {i : Nat}
    (found : xs.findIdx? p = some i) : ys.findIdx? p = some i := by
  obtain ⟨rest, rfl⟩ := front
  rw [List.findIdx?_append, found]
  rfl

theorem Declares.findFunc? (declares : m.Declares n) {name : String} {f : FuncId} (found : m.findFunc? name = some f) :
    n.findFunc? name = some f := by
  rw [findFunc?_eq] at found ⊢
  obtain ⟨i, at_, rfl⟩ := Option.map_eq_some_iff.mp found
  rw [findIdx?_of_front declares.names at_]
  rfl

theorem Declares.findGlobal? (declares : m.Declares n) {symbol : String} {id : GlobalId}
    (found : m.findGlobal? symbol = some id) : n.findGlobal? symbol = some id := by
  rw [findGlobal?_eq] at found ⊢
  obtain ⟨i, at_, rfl⟩ := Option.map_eq_some_iff.mp found
  rw [findIdx?_of_front declares.symbols at_]
  rfl

theorem prefix_of_getElem? {α : Type} {xs ys : List α} (same : ∀ (i : Nat) x, xs[i]? = some x → ys[i]? = some x) :
    xs <+: ys :=
  List.prefix_iff_getElem?.mpr fun i inside => same i _ (List.getElem?_eq_getElem inside)

theorem getElem?_names (m : Module) (i : Nat) : m.names[i]? = (m.func? ⟨i⟩).map (·.signature.name) := by
  simp [names, func?]

theorem getElem?_symbols (m : Module) (i : Nat) : m.symbols[i]? = (m.global? ⟨i⟩).map GlobalVar.symbol := by
  simp [symbols, global?]

theorem KeepsForm.declares {fixed : Prop} (keeps : m.KeepsForm fixed n) : m.Declares n := by
  refine ⟨prefix_of_getElem? fun i name found => ?_, prefix_of_getElem? fun i symbol found => ?_⟩
  · rw [getElem?_names] at found ⊢
    obtain ⟨f, known, rfl⟩ := Option.map_eq_some_iff.mp found
    obtain ⟨g, after, kept⟩ := keeps.func _ f known
    rw [after, Option.map_some, kept.signature]
  · rw [getElem?_symbols] at found ⊢
    obtain ⟨v, known, rfl⟩ := Option.map_eq_some_iff.mp found
    obtain ⟨w, after, same, -⟩ := keeps.global _ v known
    rw [after, Option.map_some, same]

theorem isSome_of_findFunc? {name : String} {f : FuncId} (found : m.findFunc? name = some f) : (m.func? f).isSome := by
  obtain ⟨i, at_, rfl⟩ := Option.map_eq_some_iff.mp found
  obtain ⟨inside, -⟩ := Array.findIdx?_eq_some_iff_getElem.mp at_
  rw [func?, Array.getElem?_eq_getElem inside]
  rfl

theorem isSome_of_findGlobal? {symbol : String} {id : GlobalId} (found : m.findGlobal? symbol = some id) :
    (m.global? id).isSome := by
  obtain ⟨i, at_, rfl⟩ := Option.map_eq_some_iff.mp found
  obtain ⟨inside, -⟩ := Array.findIdx?_eq_some_iff_getElem.mp at_
  rw [global?, Array.getElem?_eq_getElem inside]
  rfl

theorem findIdx?_concat {xs : List String} {name : String} (new : xs.findIdx? (· = name) = none) :
    (xs ++ [name]).findIdx? (· = name) = some xs.length := by
  rw [List.findIdx?_append, new]
  simp

theorem declareFunc_declares (m : Module) (s : Signature) :
    m.Declares (m.declareFunc s).1 ∧ (m.declareFunc s).1.findFunc? s.name = some (m.declareFunc s).2 := by
  unfold declareFunc
  split
  next f found => exact ⟨.refl m, found⟩
  next new =>
    have names : ({ m with funcs := m.funcs.push (.declare s []) } : Module).names = m.names ++ [s.name] := by
      simp [Module.names, Func.declare]
    refine ⟨⟨names ▸ List.prefix_append _ _, List.prefix_rfl⟩, ?_⟩
    rw [findFunc?_eq] at new ⊢
    rw [names, findIdx?_concat (Option.map_eq_none_iff.mp new)]
    simp [Module.names]

theorem declareFunction_declares (m : Module) (d : FunctionDecl) : m.Declares (m.declareFunction d).1 ∧
    (m.declareFunction d).1.findFunc? d.signature.name = some (m.declareFunction d).2 :=
  m.declareFunc_declares d.signature

theorem declareVariable_declares (m : Module) (d : VariableDecl) :
    m.Declares (m.declareVariable d).1 ∧ (m.declareVariable d).1.findGlobal? d.name = some (m.declareVariable d).2 := by
  unfold declareVariable
  split
  next id found => exact ⟨.refl m, found⟩
  next new =>
    have symbols : (m.pushGlobal ⟨d.name, d.ty, .external, false⟩).1.symbols = m.symbols ++ [d.name] := by
      simp [Module.symbols, pushGlobal]
    refine ⟨⟨List.prefix_rfl, symbols ▸ List.prefix_append _ _⟩, ?_⟩
    rw [findGlobal?_eq] at new ⊢
    rw [symbols, findIdx?_concat (Option.map_eq_none_iff.mp new)]
    simp [Module.symbols, pushGlobal]

section Declaring

variable {α β : Type} {result : α → β → Nat × β} {declare : Module → α → Module × β}

/-- Declares one after the other, and lists what they are. -/
def declareEach (result : α → β → Nat × β) (declare : Module → α → Module × β) (ds : List α) :
    Module × List (Nat × β) → Module × List (Nat × β) :=
  ds.foldl fun (m, ids) d => ((declare m d).1, ids ++ [result d (declare m d).2])

theorem declareImage_eq (m : Module) (image : Image) : m.declareImage image =
    let (m, funcs) := declareEach (fun d f => (d.address, f)) declareFunction image.funcs (m, [])
    let (m, vars) := declareEach (fun d v => (d.address, v)) declareVariable image.vars (m, [])
    (m, funcs, vars) := rfl

/-- What each declaration keeps, all of them keep. -/
theorem declareEach_keeps {P : Module → Prop} (keeps : ∀ m d, P m → P (declare m d).1) (ds : List α)
    (done : List (Nat × β)) (start : P m) : P (declareEach result declare ds (m, done)).1 := by
  induction ds generalizing m done with
  | nil => exact start
  | cons d ds ih => exact ih _ (keeps m d start)

/-- What was declared is found, so where it is declared already, declaring it changes nothing. -/
theorem declareEach_again {found : Module → α → Option β}
    (declares : ∀ m d, m.Declares (declare m d).1 ∧ found (declare m d).1 d = some (declare m d).2)
    (stays : ∀ m n d b, m.Declares n → found m d = some b → found n d = some b)
    (again : ∀ m d b, found m d = some b → declare m d = (m, b)) (ds : List α) (m : Module) (done : List (Nat × β)) :
    ∃ n ids, declareEach result declare ds (m, done) = (n, ids) ∧ m.Declares n ∧
      (∀ p ∈ ids, p ∈ done ∨ ∃ d b, p = result d b ∧ found n d = some b) ∧
      ∀ k, n.Declares k → declareEach result declare ds (k, done) = (k, ids) := by
  induction ds generalizing m done with
  | nil => exact ⟨m, done, rfl, .refl m, fun p member => .inl member, fun _ _ => rfl⟩
  | cons d ds ih =>
    obtain ⟨first, here⟩ := declares m d
    obtain ⟨n, ids, whole, rest, known, later⟩ := ih (declare m d).1 (done ++ [result d (declare m d).2])
    refine ⟨n, ids, whole, first.trans rest, fun p member => ?_, fun k declared => ?_⟩
    · rcases known p member with before | new
      · rcases List.mem_append.mp before with old | last
        · exact .inl old
        · exact .inr ⟨d, _, List.mem_singleton.mp last, stays _ _ _ _ rest here⟩
      · exact .inr new
    -- What the first declarations made is found in whatever program came of them.
    · have same := again k d _ (stays _ _ _ _ (rest.trans declared) here)
      rw [declareEach, List.foldl_cons]
      dsimp only
      rw [same]
      exact later k declared

end Declaring

theorem declareImage_keeps {P : Module → Prop} (func : ∀ m s, P m → P (m.declareFunc s).1)
    (variable_ : ∀ m d, P m → P (m.declareVariable d).1) (start : P m) (image : Image) : P (m.declareImage image).1 := by
  have functions : P (declareEach (fun (d : FunctionDecl) f => (d.address, f)) declareFunction image.funcs (m, [])).1 :=
    declareEach_keeps (fun m d => func m d.signature) image.funcs [] start
  exact declareEach_keeps variable_ image.vars [] functions

theorem declareFunctions_again (ds : List FunctionDecl) (m : Module) (done : List (Nat × FuncId)) :
    ∃ n ids, declareEach (fun d f => (d.address, f)) declareFunction ds (m, done) = (n, ids) ∧ m.Declares n ∧
      (∀ p ∈ ids, p ∈ done ∨ ∃ (d : FunctionDecl) (f : FuncId), p = (d.address, f) ∧
        n.findFunc? d.signature.name = some f) ∧
      ∀ k, n.Declares k → declareEach (fun d f => (d.address, f)) declareFunction ds (k, done) = (k, ids) := by
  refine declareEach_again declareFunction_declares (fun m n d f declares found => ?_) (fun m d f found => ?_) ds m done
  · exact declares.findFunc? found
  · simp [declareFunction, declareFunc, found]

theorem declareVariables_again (ds : List VariableDecl) (m : Module) (done : List (Nat × GlobalId)) :
    ∃ n ids, declareEach (fun d v => (d.address, v)) declareVariable ds (m, done) = (n, ids) ∧ m.Declares n ∧
      (∀ p ∈ ids, p ∈ done ∨ ∃ (d : VariableDecl) (id : GlobalId), p = (d.address, id) ∧
        n.findGlobal? d.name = some id) ∧
      ∀ k, n.Declares k → declareEach (fun d v => (d.address, v)) declareVariable ds (k, done) = (k, ids) := by
  refine declareEach_again declareVariable_declares (fun m n d id declares found => ?_) (fun m d id found => ?_) ds m done
  · exact declares.findGlobal? found
  · simp [declareVariable, found]

theorem declareImage_again (m : Module) (image : Image) : ∃ n funcs vars, m.declareImage image = (n, funcs, vars) ∧
    (∀ p ∈ funcs, (n.func? p.2).isSome) ∧ (∀ p ∈ vars, (n.global? p.2).isSome) ∧
    ∀ k, n.Declares k → k.declareImage image = (k, funcs, vars) := by
  obtain ⟨m₁, funcs, first, -, functions, again⟩ := declareFunctions_again image.funcs m []
  obtain ⟨m₂, vars, second, more, variables_, again'⟩ := declareVariables_again image.vars m₁ []
  refine ⟨m₂, funcs, vars, ?_, fun p member => ?_, fun p member => ?_, fun k declared => ?_⟩
  · simp only [declareImage_eq, first, second]
  · obtain ⟨d, f, rfl, found⟩ := (functions p member).resolve_left List.not_mem_nil
    exact isSome_of_findFunc? (more.findFunc? found)
  · obtain ⟨d, id, rfl, found⟩ := (variables_ p member).resolve_left List.not_mem_nil
    exact isSome_of_findGlobal? found
  · simp only [declareImage_eq, again k (more.trans declared), again' k declared]

end Module

/-! ### Tables -/

namespace EntityTable

/-- What is at an address when a variable has been placed there. -/
def heldAfter (id : GlobalId) (size : Nat) : Option (Entity × Nat) → Entity × Nat
  | none => (.var id, size)
  | some (.func f, old) => (.func f, old)
  | some (.var other, old) => if other = id ∨ size ≤ old then (.var other, old) else (.var id, size)

variable {t u : EntityTable} {m n : Module}

theorem find?_insertVar (t : EntityTable) (m : Module) (a : Nat) (id : GlobalId) (size b : Nat) :
    (t.insertVar m a id size).1.entities.find? b =
      if b = a then some (heldAfter id size (t.entities.find? a)) else t.entities.find? b := by
  have same (held : t.entities.find? a = some (heldAfter id size (t.entities.find? a))) :
      t.entities.find? b = if b = a then some (heldAfter id size (t.entities.find? a)) else t.entities.find? b := by
    split
    next here => rw [here, ← held]
    next => rfl
  unfold insertVar
  dsimp only
  split
  next free => rw [free]; exact AddressMap.find?_insert ..
  next found => exact same (by rw [found]; rfl)
  next other old found =>
    split
    next here => exact same (by rw [found, heldAfter, if_pos (.inl here)])
    next differ =>
      split
      next small => exact same (by rw [found, heldAfter, if_pos (.inr small)])
      next large =>
        rw [found, heldAfter, if_neg (not_or.mpr ⟨differ, large⟩)]
        exact AddressMap.find?_insert ..

end EntityTable

namespace Module

variable {m n : Module} {image : Image} {t u : EntityTable} {v : Nat × GlobalId} {ws stop : List Warning}

/-- The bytes that a variable takes, if its type has a size. -/
def variableSize (m : Module) (id : GlobalId) : Nat :=
  ((m.global? id).bind fun v => m.layout.allocSize? v.ty).getD 0

theorem variableSize_eq {id : GlobalId} {v : GlobalVar} {size : Nat} (known : m.global? id = some v)
    (sized : m.layout.allocSize? v.ty = some size) : m.variableSize id = size := by
  rw [variableSize, known, Option.bind_some, sized]
  rfl

def HasSize (m : Module) (id : GlobalId) : Prop :=
  ∃ v, m.global? id = some v ∧ (m.layout.allocSize? v.ty).isSome

theorem placeVariable_ok (known : (m.global? v.2).isSome)
    (run : (m.placeVariable t v).run.run ws = (.ok u, stop)) :
    m.HasSize v.2 ∧ u = (t.insertVar m v.1 v.2 (m.variableSize v.2)).1 := by
  obtain ⟨var, found⟩ := Option.isSome_iff_exists.mp known
  unfold placeVariable at run
  rw [found] at run
  dsimp only at run
  split at run
  next => cases run
  next size sized =>
    obtain ⟨_, _, -, run⟩ := Recovering.bind_ok run
    obtain ⟨done, -⟩ := Recovering.pure_ok run
    rw [variableSize_eq found sized]
    exact ⟨⟨var, found, by rw [sized]; rfl⟩, done.symm⟩

theorem run_placeVariable (sized : m.HasSize v.2) (t : EntityTable) (ws : List Warning) :
    ∃ stop, (m.placeVariable t v).run.run ws = (.ok (t.insertVar m v.1 v.2 (m.variableSize v.2)).1, stop) := by
  obtain ⟨var, found, some_⟩ := sized
  obtain ⟨size, sized⟩ := Option.isSome_iff_exists.mp some_
  rw [variableSize_eq found sized]
  unfold placeVariable
  rw [found]
  dsimp only
  rw [sized]
  exact ⟨_, rfl⟩

theorem hasSize_of_placed {vars : List (Nat × GlobalId)} (known : ∀ v ∈ vars, (m.global? v.2).isSome)
    (run : (vars.foldlM m.placeVariable t).run.run ws = (.ok u, stop)) : ∀ v ∈ vars, m.HasSize v.2 := by
  induction vars generalizing t ws with
  | nil => exact List.forall_mem_nil _
  | cons v vars ih =>
    obtain ⟨here, rest⟩ := List.forall_mem_cons.mp known
    rw [List.foldlM_cons] at run
    obtain ⟨t₁, mid, first, run⟩ := Recovering.bind_ok run
    exact List.forall_mem_cons.mpr ⟨(placeVariable_ok here first).1, ih rest run⟩

theorem run_placeVariables {vars : List (Nat × GlobalId)} (sized : ∀ v ∈ vars, m.HasSize v.2) (t : EntityTable)
    (ws : List Warning) : ∃ u stop, (vars.foldlM m.placeVariable t).run.run ws = (.ok u, stop) := by
  induction vars generalizing t ws with
  | nil => exact ⟨t, ws, rfl⟩
  | cons v vars ih =>
    obtain ⟨here, rest⟩ := List.forall_mem_cons.mp sized
    obtain ⟨mid, first⟩ := run_placeVariable here t ws
    obtain ⟨u, stop, others⟩ := ih rest (t.insertVar m v.1 v.2 (m.variableSize v.2)).1 mid
    exact ⟨u, stop, by rw [List.foldlM_cons, Recovering.run_bind first, others]⟩

def placeFuncs (m : Module) (funcs : List (Nat × FuncId)) (start : EntityTable × List Warning) :
    EntityTable × List Warning :=
  funcs.foldl (fun (t, ws) (address, f) =>
    let (t, new) := t.insertFunc m address f
    (t, ws ++ new)) start

theorem placeImage_ok (run : (m.placeImage image).run.run ws = (.ok (n, t), stop)) :
    ∃ funcs vars mid, m.declareImage image = (n, funcs, vars) ∧
      (vars.foldlM n.placeVariable (n.placeFuncs funcs (.empty, [])).1).run.run mid = (.ok t, stop) := by
  unfold placeImage at run
  generalize m.declareImage image = declared at run
  obtain ⟨m₁, funcs, vars⟩ := declared
  obtain ⟨_, mid, -, run⟩ := Recovering.bind_ok run
  obtain ⟨t₁, _, placed, run⟩ := Recovering.bind_ok run
  obtain ⟨done, rfl⟩ := Recovering.pure_ok run
  cases done
  exact ⟨funcs, vars, mid, rfl, placed⟩

/-- What holds of all functions, and of those that are only declared, holds of them once an image is placed. -/
theorem placeImage_forall {P : Func → Prop} (declared : ∀ s, P (.declare s []))
    (all : ∀ id f, m.func? id = some f → P f) (run : (m.placeImage image).run.run ws = (.ok (n, t), stop)) :
    ∀ id f, n.func? id = some f → P f := by
  have func (m : Module) (s : Signature) (all : ∀ id f, m.func? id = some f → P f) :
      ∀ id f, (m.declareFunc s).1.func? id = some f → P f := by
    unfold declareFunc
    split
    next => exact all
    next =>
      intro id f found
      change (m.funcs.push (.declare s []))[id.index]? = some f at found
      rw [Array.getElem?_push] at found
      split at found
      next => cases found; exact declared s
      next => exact all id f found
  have variable_ (m : Module) (d : VariableDecl) (all : ∀ id f, m.func? id = some f → P f) :
      ∀ id f, (m.declareVariable d).1.func? id = some f → P f := by
    unfold declareVariable
    split <;> exact all
  obtain ⟨funcs, vars, -, same, -⟩ := placeImage_ok run
  have whole := declareImage_keeps (P := fun m => ∀ id f, m.func? id = some f → P f) func variable_ all image
  rwa [same] at whole

/-- Placing an image once more, in a program that has what it declares. -/
theorem placeImage_again (run : (m.placeImage image).run.run ws = (.ok (n, t), stop)) {k : Module}
    (declares : n.Declares k) (sized : ∀ id, n.HasSize id → k.HasSize id) (ws' : List Warning) :
    ∃ funcs vars u mid mid' stop',
      (∀ v ∈ vars, (n.global? v.2).isSome ∧ n.HasSize v.2) ∧ m.declareImage image = (n, funcs, vars) ∧
      (vars.foldlM n.placeVariable (n.placeFuncs funcs (.empty, [])).1).run.run mid = (.ok t, stop) ∧
      (vars.foldlM k.placeVariable (k.placeFuncs funcs (.empty, [])).1).run.run mid' = (.ok u, stop') ∧
      (k.placeImage image).run.run ws' = (.ok (k, u), stop') := by
  obtain ⟨funcs, vars, mid, declared, placed⟩ := placeImage_ok run
  obtain ⟨n', funcs', vars', again, -, known, later⟩ := declareImage_again m image
  cases declared.symm.trans again
  have had := hasSize_of_placed known placed
  obtain ⟨u, stop', placed'⟩ := run_placeVariables (fun v member => sized v.2 (had v member))
    (k.placeFuncs funcs (.empty, [])).1 (ws' ++ (k.placeFuncs funcs (.empty, [])).2)
  refine ⟨funcs, vars, u, mid, _, stop', fun v member => ⟨known v member, had v member⟩, declared, placed, placed', ?_⟩
  unfold placeImage
  rw [later k declares]
  change ((Recovering.warnAll (k.placeFuncs funcs (.empty, [])).2 >>= fun _ =>
    vars.foldlM k.placeVariable (k.placeFuncs funcs (.empty, [])).1 >>= fun t => pure (k, t)) : Recovering _).run.run ws' = _
  rw [Recovering.run_bind (Recovering.run_warnAll ws' _), Recovering.run_bind placed']
  rfl

end Module

end VarRecovery
