import VarRecovery.Proofs.Region.Variables

/-!
Variables that runs outgrow. A run that takes more bytes than the variable where it starts gives it another type, and
its addresses point to that. All other variables and their addresses have the types they had.
-/

set_option autoImplicit false

namespace VarRecovery

namespace Module

theorem graph_setGlobalTy (m : Module) (id : GlobalId) (ty : Ty) (f : FuncId) :
    (m.setGlobalTy id ty).graph f = (m.graph f).setGlobalTy id (.ptr ty) := by
  rw [graph, func?_setGlobalTy, graph]
  cases m.func? f with
  | some func => rfl
  | none => simp [Graph.setGlobalTy, Graph.empty]

/-- What is known of an address of a variable in code is its type. -/
def AddressesHave (m n : Module) (id : GlobalId) (change : Ty → Ty) : Prop :=
  ∀ f v old, (m.graph f).value? v = some (.global id old) → (n.graph f).value? v = some (.global id (change old))

end Module

namespace Run

/-- A run starts where a variable lies, and takes more bytes than that has. -/
def Outgrows (r : Run) (m : Module) (t : EntityTable) (id : GlobalId) : Prop :=
  t.get? r.fields.start = some (.var id) ∧ ∃ v, m.global? id = some v ∧ (m.layout.allocSize? v.ty).getD 0 < r.size

/-- A type is the struct that a run makes of a variable. -/
def Reshapes (r : Run) (m : Module) (t : EntityTable) (id : GlobalId) (ty : Ty) : Prop :=
  t.get? r.fields.start = some (.var id) ∧ ∃ name, ty = .struct name r.fields.types (r.isPacked m.layout)

end Run

/-- Runs got variables. Those that were there have the types they had, but for those that a run outgrows, and in code
nothing changed but the types of the addresses of these. -/
structure Outgrowth (runs : List Run) (m : Module) (t : EntityTable) (n : Module) (u : EntityTable) : Prop where
  target : n.target = m.target
  insts : ∀ f, (n.graph f).insts = (m.graph f).insts
  value : ∀ f v val, (m.graph f).value? v = some val → (∀ id old, val ≠ .global id old) →
    (n.graph f).value? v = some val
  place : ∀ id, (m.global? id).isSome → ∀ a, u.get? a = some (.var id) ↔ t.get? a = some (.var id)
  kept : ∀ id v, m.global? id = some v → (∀ r ∈ runs, ¬r.Outgrows m t id) →
    n.global? id = some v ∧ m.AddressesHave n id (fun ty => ty)
  outgrown : ∀ id, (∃ r ∈ runs, r.Outgrows m t id) → ∃ w, n.global? id = some w ∧
    (∃ r ∈ runs, r.Reshapes m t id w.ty) ∧ m.AddressesHave n id (fun _ => .ptr w.ty)

namespace Outgrowth

variable {r : Run} {runs : List Run} {m n k : Module} {t u s : EntityTable}

theorem layout (growth : Outgrowth runs m t n u) : n.layout = m.layout :=
  congrArg Target.dataLayout growth.target

theorem nil (m : Module) (t : EntityTable) : Outgrowth [] m t m t where
  target := rfl
  insts _ := rfl
  value _ _ _ found _ := found
  place _ _ _ := .rfl
  kept _ _ known _ := ⟨known, fun _ _ _ found => found⟩
  outgrown _ := nofun

/-- Nothing that was there is touched, and the run outgrows nothing. -/
theorem untouched (fits : ∀ id, ¬r.Outgrows m t id) (target : n.target = m.target) (funcs : n.funcs = m.funcs)
    (globals : ∀ id v, m.global? id = some v → n.global? id = some v)
    (place : ∀ id, (m.global? id).isSome → ∀ a, u.get? a = some (.var id) ↔ t.get? a = some (.var id)) :
    Outgrowth [r] m t n u := by
  have graph (f : FuncId) : n.graph f = m.graph f := by rw [Module.graph, Module.func?, funcs]; rfl
  refine ⟨target, fun f => by rw [graph], fun f v val found _ => by rwa [graph], place, fun id v known _ => ?_, ?_⟩
  · exact ⟨globals id v known, fun f w old found => by rwa [graph]⟩
  · rintro id ⟨_, member, outgrows⟩
    cases List.mem_singleton.mp member
    exact absurd outgrows (fits id)

theorem cons (first : Outgrowth [r] m t n u) (rest : Outgrowth runs n u k s) : Outgrowth (r :: runs) m t k s := by
  have there {id : GlobalId} (known : (m.global? id).isSome) : (n.global? id).isSome := by
    obtain ⟨v, known⟩ := Option.isSome_iff_exists.mp known
    by_cases outgrows : r.Outgrows m t id
    · obtain ⟨w, after, -⟩ := first.outgrown id ⟨r, by simp, outgrows⟩
      exact Option.isSome_of_eq_some after
    · exact Option.isSome_of_eq_some (first.kept id v known (by simpa using outgrows)).1
  have known {q : Run} {id : GlobalId} (outgrows : q.Outgrows m t id) : (m.global? id).isSome :=
    outgrows.2.elim fun v both => Option.isSome_of_eq_some both.1
  have places {id : GlobalId} (known : (m.global? id).isSome) (a : Nat) := first.place id known a
  have reshapes {q : Run} {id : GlobalId} {ty : Ty} (known : (m.global? id).isSome) :
      q.Reshapes n u id ty ↔ q.Reshapes m t id ty := by
    rw [Run.Reshapes, Run.Reshapes, places known, first.layout]
  -- For a variable that the first run leaves alone, the others outgrow it as they did before.
  have later {q : Run} {id : GlobalId} {v : GlobalVar} (known : m.global? id = some v) (fits : ¬r.Outgrows m t id) :
      q.Outgrows n u id ↔ q.Outgrows m t id := by
    have after := (first.kept id v known (by simpa using fits)).1
    rw [Run.Outgrows, Run.Outgrows, places (Option.isSome_of_eq_some known), first.layout, known, after]
  refine ⟨rest.target.trans first.target, fun f => (rest.insts f).trans (first.insts f),
    fun f v val found other => rest.value f v val (first.value f v val found other) other,
    fun id known a => (rest.place id (there known) a).trans (places known a), fun id v known fits => ?kept,
    fun id outgrown => ?outgrown⟩
  case kept =>
    obtain ⟨alone, others⟩ := List.forall_mem_cons.mp fits
    obtain ⟨between, one⟩ := first.kept id v known (by simpa using alone)
    obtain ⟨after, two⟩ := rest.kept id v between fun q member outgrows =>
      others q member ((later known alone).mp outgrows)
    exact ⟨after, fun f w old found => two f w old (one f w old found)⟩
  case outgrown =>
    obtain ⟨q, member, outgrows⟩ := outgrown
    have here := known outgrows
    obtain ⟨v, known⟩ := Option.isSome_iff_exists.mp here
    by_cases others : ∃ q ∈ runs, q.Outgrows n u id
    · obtain ⟨w, after, ⟨p, inside, shape⟩, two⟩ := rest.outgrown id others
      refine ⟨w, after, ⟨p, List.mem_cons_of_mem _ inside, (reshapes here).mp shape⟩, fun f x old found => ?_⟩
      by_cases outgrows : r.Outgrows m t id
      · obtain ⟨_, -, -, one⟩ := first.outgrown id ⟨r, by simp, outgrows⟩
        exact two f x _ (one f x old found)
      · exact two f x _ ((first.kept id v known (by simpa using outgrows)).2 f x old found)
    · have outgrows : r.Outgrows m t id := by
        rcases List.mem_cons.mp member with rfl | inside
        · exact outgrows
        · exact Classical.byContradiction fun fits => others ⟨q, inside, (later known fits).mpr outgrows⟩
      obtain ⟨w, between, ⟨p, inside, shape⟩, one⟩ := first.outgrown id ⟨r, by simp, outgrows⟩
      obtain ⟨after, two⟩ := rest.kept id w between fun q member outgrows => others ⟨q, member, outgrows⟩
      cases List.mem_singleton.mp inside
      exact ⟨w, after, ⟨r, by simp, shape⟩, fun f x old found => two f x _ (one f x old found)⟩

end Outgrowth

namespace Run

variable {r : Run} {m n : Module} {t u : EntityTable}

theorem outgrown_outgrowth {id : GlobalId} (outgrows : r.Outgrows m t id) (types : TyStore) {ty : Ty}
    (shape : r.Reshapes m t id ty) :
    Outgrowth [r] m t ({ m with types }.setGlobalTy id ty) (t.resize r.fields.start r.size) := by
  -- Only this variable lies where the run starts.
  have only {j : GlobalId} (others : r.Outgrows m t j) : j = id := by
    cases outgrows.1.symm.trans others.1
    rfl
  have graph (f : FuncId) : ({ m with types }.setGlobalTy id ty).graph f = (m.graph f).setGlobalTy id (.ptr ty) :=
    Module.graph_setGlobalTy _ id ty f
  have global (j : GlobalId) : ({ m with types }.setGlobalTy id ty).global? j =
      (m.global? j).map fun v => if j = id then { v with ty } else v := Module.global?_setGlobalTy _ id ty j
  refine ⟨rfl, fun f => by rw [graph]; rfl, fun f w val found other => ?_,
    fun j _ a => by rw [EntityTable.get?_resize], fun j w found fits => ?_, fun j outgrown => ?_⟩
  · rw [graph, Graph.value?_setGlobalTy, found]
    cases val with
    | global j old => exact absurd rfl (other j old)
    | _ => rfl
  · have differ : j ≠ id := fun same => fits r (by simp) (same ▸ outgrows)
    refine ⟨by rw [global, found, Option.map_some, if_neg differ], fun f x old there => ?_⟩
    rw [graph, Graph.value?_setGlobalTy, there]
    simp [differ]
  · obtain ⟨_, member, others⟩ := outgrown
    cases List.mem_singleton.mp member
    obtain rfl := only others
    obtain ⟨-, v, known, -⟩ := outgrows
    refine ⟨{ v with ty }, by rw [global, known, Option.map_some, if_pos rfl], ⟨r, by simp, shape⟩,
      fun f x old there => ?_⟩
    rw [graph, Graph.value?_setGlobalTy, there]
    simp

theorem create_outgrowth (free : t.get? r.fields.start = none) :
    Outgrowth [r] m t (r.create m t).1 (t.putVar r.fields.start ⟨m.globals.size⟩ r.size) := by
  refine .untouched (fun id outgrows => nomatch free.symm.trans outgrows.1) rfl rfl (fun _ _ => global?_create)
    fun id known a => ?_
  rw [EntityTable.get?_putVar]
  split
  next here =>
    obtain ⟨v, known⟩ := Option.isSome_iff_exists.mp known
    have inside := (Array.getElem?_eq_some_iff.mp known).1
    rw [here, free]
    refine ⟨fun same => ?_, nofun⟩
    cases same
    exact absurd inside (Nat.lt_irrefl _)
  next => rfl

/-- A run that needs no variable outgrows none. -/
theorem Settled.not_outgrows (settled : r.Settled m t) (id : GlobalId) : ¬r.Outgrows m t id := by
  rintro ⟨there, v, known, small⟩
  cases settled with
  | code f here => cases here.symm.trans there
  | fits jd here large =>
    cases here.symm.trans there
    exact absurd small (Nat.not_lt.mpr (large v known))
  | covered free => cases free.symm.trans there

theorem Declares.outgrowth (declares : r.Declares m t n u) : Outgrowth [r] m t n u := by
  cases declares with
  | settled settled => exact .untouched settled.not_outgrows rfl rfl (fun _ _ found => found) fun _ _ _ => .rfl
  | outgrown id v here known small types => exact outgrown_outgrowth ⟨here, v, known, small⟩ types ⟨here, _, rfl⟩
  | created free => exact create_outgrowth free

theorem declareAll_outgrowth (runs : List Run) (m : Module) (t : EntityTable) :
    Outgrowth runs m t (declareAll runs m t).1 (declareAll runs m t).2.1 := by
  induction runs generalizing m t with
  | nil => exact .nil m t
  | cons r rs ih => exact (r.declares m t).outgrowth.cons (ih _ _)

end Run

end VarRecovery
