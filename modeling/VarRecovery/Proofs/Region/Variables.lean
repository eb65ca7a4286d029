import VarRecovery.Proofs.Code.Graph
import VarRecovery.Proofs.Recovering
import VarRecovery.Proofs.Region.EntityTable
import VarRecovery.Region.Globals

/-!
What declaring variables for runs of cells makes of a program and its entities. Variables are added and get
other types; the code stays, and so do the places of entities.
-/

set_option autoImplicit false

namespace VarRecovery

namespace Graph

theorem imm?_setGlobalTy (g : Graph) (id : GlobalId) (ty : Ty) (v : ValueId) :
    (g.setGlobalTy id ty).imm? v = g.imm? v := by
  rw [imm?, value?_setGlobalTy, imm?]
  cases g.value? v with
  | none => rfl
  | some val => cases val <;> rfl

end Graph

namespace Module

/-- The functions have the same instructions and constants, and no variable is gone. -/
structure SameCode (m n : Module) : Prop where
  func : ∀ f, (n.func? f).isSome = (m.func? f).isSome
  insts : ∀ f, (n.graph f).insts = (m.graph f).insts
  imm : ∀ f v, (n.graph f).imm? v = (m.graph f).imm? v
  globals : m.globals.size ≤ n.globals.size

variable {m n k : Module}

theorem SameCode.refl (m : Module) : m.SameCode m :=
  ⟨fun _ => rfl, fun _ => rfl, fun _ _ => rfl, Nat.le_refl _⟩

theorem SameCode.trans (first : m.SameCode n) (second : n.SameCode k) : m.SameCode k where
  func f := (second.func f).trans (first.func f)
  insts f := (second.insts f).trans (first.insts f)
  imm f v := (second.imm f v).trans (first.imm f v)
  globals := Nat.le_trans first.globals second.globals

theorem SameCode.of_funcs_eq (same : n.funcs = m.funcs) (globals : m.globals.size ≤ n.globals.size) :
    m.SameCode n := by
  have func (f : FuncId) : n.func? f = m.func? f := by rw [func?, same, func?]
  refine ⟨fun f => by rw [func], fun f => ?_, fun f v => ?_, globals⟩
  all_goals rw [graph, func, graph]

theorem func?_setGlobalTy (m : Module) (id : GlobalId) (ty : Ty) (f : FuncId) :
    (m.setGlobalTy id ty).func? f = (m.func? f).map (·.updateGraph (·.setGlobalTy id (.ptr ty))) := by
  simp [func?, setGlobalTy]

theorem global?_setGlobalTy (m : Module) (id : GlobalId) (ty : Ty) (j : GlobalId) :
    (m.setGlobalTy id ty).global? j = (m.global? j).map fun v => if j = id then { v with ty } else v := by
  simp only [global?, setGlobalTy, Array.getElem?_modify]
  by_cases same : j = id
  · simp [same]
  · have differ : ¬id.index = j.index := fun index => same (by cases id; cases j; exact congrArg _ index.symm)
    simp [same, differ]

theorem sameCode_setGlobalTy (m : Module) (id : GlobalId) (ty : Ty) :
    m.SameCode (m.setGlobalTy id ty) where
  func f := by rw [func?_setGlobalTy, Option.isSome_map]
  insts f := by
    rw [graph, func?_setGlobalTy, graph]
    cases m.func? f <;> rfl
  imm f v := by
    rw [graph, func?_setGlobalTy, graph]
    cases m.func? f with
    | none => rfl
    | some func => exact Graph.imm?_setGlobalTy func.graph id (.ptr ty) v
  globals := by simp [setGlobalTy]

theorem SameCode.has (same : m.SameCode n) {e : Entity} (has : m.Has e) : n.Has e := by
  cases e with
  | func f =>
    refine Option.isSome_iff_exists.mp ?_
    rw [same.func]
    exact Option.isSome_iff_exists.mpr has
  | var id =>
    obtain ⟨v, found⟩ := has
    have inside := (Array.getElem?_eq_some_iff.mp found).1
    exact ⟨_, Array.getElem?_eq_getElem (Nat.lt_of_lt_of_le inside same.globals)⟩

end Module

namespace EntityTable

/-- All entities of a table exist, and each lies at one address. -/
structure Fits (t : EntityTable) (m : Module) : Prop where
  injective : t.Injective
  exist : t.Exists m

variable {t : EntityTable} {m n : Module}

theorem Fits.of_get?_eq (fits : t.Fits m) (same : m.SameCode n) {u : EntityTable}
    (places : ∀ a, u.get? a = t.get? a) : u.Fits n where
  injective a b e first second := fits.injective a b e (places a ▸ first) (places b ▸ second)
  exist a e found := same.has (fits.exist a e (places a ▸ found))

theorem Fits.putVar (fits : t.Fits m) (same : m.SameCode n) {id : GlobalId}
    (new : m.global? id = none) (there : n.Has (.var id)) (a size : Nat) :
    (t.putVar a id size).Fits n := by
  have nowhere (b : Nat) : t.get? b ≠ some (.var id) := by
    intro found
    obtain ⟨old, known⟩ := fits.exist b _ found
    cases new.symm.trans known
  constructor
  · intro b c e first second
    rw [get?_putVar] at first second
    split at first <;> split at second
    next here too => exact here.trans too.symm
    next => cases first; exact absurd second (nowhere c)
    next => cases second; exact absurd first (nowhere b)
    next => exact fits.injective b c e first second
  · intro b e found
    rw [get?_putVar] at found
    split at found
    next => cases found; exact there
    next => exact same.has (fits.exist b e found)

end EntityTable

namespace Run

variable {r : Run} {m n : Module} {t u : EntityTable}

theorem sameCode_create (r : Run) (m : Module) (t : EntityTable) : m.SameCode (r.create m t).1 :=
  .of_funcs_eq rfl (by simp [create, Module.pushGlobal])

theorem global?_create {id : GlobalId} {v : GlobalVar} (known : m.global? id = some v) :
    (r.create m t).1.global? id = some v := by
  have inside : id.index < m.globals.size := (Array.getElem?_eq_some_iff.mp known).1
  exact (Array.getElem?_push_lt inside).trans (Array.getElem?_eq_getElem inside ▸ known)

/-- A variable is placed at a free address, without a warning. -/
theorem create_of_free (free : t.get? r.fields.start = none) :
    (r.create m t).2 = (t.putVar r.fields.start ⟨m.globals.size⟩ r.size, true, []) := by
  have empty : t.entities.find? r.fields.start = none := Option.map_eq_none_iff.mp free
  simp [create, Module.pushGlobal, EntityTable.insertVar, empty]

/-! ### What declaring a run does -/

/-- A run needs no variable: it starts at a function or where a variable has as many bytes, or lies in a variable. -/
inductive Settled (r : Run) (m : Module) (t : EntityTable) : Prop
  | code (f : FuncId) (here : t.get? r.fields.start = some (.func f))
  | fits (id : GlobalId) (here : t.get? r.fields.start = some (.var id))
      (large : ∀ v, m.global? id = some v → r.size ≤ (m.layout.allocSize? v.ty).getD 0)
  | covered (free : t.get? r.fields.start = none) (covered : r.isCovered t = true)

/-- What becomes of a module and its entities when a run is declared. -/
inductive Declares (r : Run) (m : Module) (t : EntityTable) : Module → EntityTable → Prop
  | settled (settled : r.Settled m t) : Declares r m t m t
  | outgrown (id : GlobalId) (v : GlobalVar) (here : t.get? r.fields.start = some (.var id))
      (known : m.global? id = some v) (small : (m.layout.allocSize? v.ty).getD 0 < r.size) (types : TyStore)
      (name : String) :
      Declares r m t (({ m with types }).setGlobalTy id (.struct name r.fields.types (r.isPacked m.layout)))
        (t.resize r.fields.start r.size)
  | created (free : t.get? r.fields.start = none) (uncovered : r.isCovered t = false) :
      Declares r m t (r.create m t).1 (t.putVar r.fields.start ⟨m.globals.size⟩ r.size)

theorem declares (r : Run) (m : Module) (t : EntityTable) : r.Declares m t (r.declare m t).1 (r.declare m t).2.1 := by
  unfold declare
  split
  next f here => exact .settled (.code f here)
  next id here =>
    split
    next v known =>
      dsimp only
      unfold retype
      split
      next small => exact .outgrown id v here known small _ _
      next large =>
        refine .settled (.fits id here fun w again => ?_)
        cases known.symm.trans again
        exact Nat.le_of_not_lt large
    next missing => exact .settled (.fits id here fun v known => nomatch missing.symm.trans known)
  next free =>
    split
    next covered => exact .settled (.covered free covered)
    next uncovered =>
      rw [create_of_free free]
      exact .created free (Bool.eq_false_iff.mpr uncovered)

theorem Declares.sameCode (declares : r.Declares m t n u) : m.SameCode n := by
  cases declares with
  | settled => exact .refl m
  | outgrown id _ _ _ _ types =>
    have typed : m.SameCode { m with types } := .of_funcs_eq rfl (Nat.le_refl _)
    exact typed.trans (Module.sameCode_setGlobalTy _ id _)
  | created => exact sameCode_create r m t

/-- The entities that have a place keep it, and exist. -/
theorem Declares.fits (declares : r.Declares m t n u) (fits : t.Fits m) : u.Fits n := by
  have same := declares.sameCode
  cases declares with
  | settled => exact fits
  | outgrown => exact fits.of_get?_eq same (t.get?_resize _ _)
  | created =>
    have new : m.global? ⟨m.globals.size⟩ = none := Array.getElem?_eq_none (Nat.le_refl m.globals.size)
    exact fits.putVar same new ⟨_, Array.getElem?_push_size⟩ _ _

theorem declareAll_fits (runs : List Run) (fits : t.Fits m) :
    m.SameCode (declareAll runs m t).1 ∧ (declareAll runs m t).2.1.Fits (declareAll runs m t).1 := by
  induction runs generalizing m t with
  | nil => exact ⟨.refl m, fits⟩
  | cons r rs ih =>
    have first := r.declares m t
    obtain ⟨rest, last⟩ := ih (first.fits fits)
    exact ⟨first.sameCode.trans rest, last⟩

end Run

namespace Module

variable {m n : Module} {t u : EntityTable} {cells : List Cell} {cursor last : EntryCursor} {built : BuiltGlobals}

/-- What a run that succeeds did: all variables were declared before the first cell was redirected. -/
theorem buildGlobals_ok {ws stop : List Warning}
    (run : (m.buildGlobals t cells cursor).run.run ws = (.ok (n, u, last, built), stop)) :
    ∃ runs s, Run.ofCells m.layout (Cell.sort (.ofTable m t cells) m.layout cells) = .ok runs ∧
      u = (Run.declareAll runs m t).2.1 ∧
      GlobalRedirection.redirectAll u (Cell.sort (.ofTable m t cells) m.layout cells)
        ⟨(Run.declareAll runs m t).1, cursor, [], [], []⟩ = .ok s ∧
      n = s.module ∧ last = s.cursor := by
  unfold buildGlobals at run
  obtain ⟨runs, _, formed, run⟩ := Recovering.bind_ok run
  obtain ⟨formed, -⟩ := Recovering.lift_ok formed
  obtain ⟨_, _, -, run⟩ := Recovering.bind_ok run
  obtain ⟨s, _, redirected, run⟩ := Recovering.bind_ok run
  obtain ⟨redirected, -⟩ := Recovering.lift_ok redirected
  obtain ⟨done, -⟩ := Recovering.pure_ok run
  cases done
  exact ⟨runs, s, formed, rfl, redirected, rfl, rfl⟩

end Module

end VarRecovery
