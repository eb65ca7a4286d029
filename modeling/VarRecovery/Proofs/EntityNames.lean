import Mathlib
import VarRecovery.Proofs.Placement

/-!
Declarations and the entities that they become. Functions are told apart by their names, and so are variables:
declarations of one kind and one name are one entity, wherever they lie, and all others are different ones. Of those at
one address the table holds one, which depends on the sizes of variables where several compete for it.
-/

set_option autoImplicit false

namespace VarRecovery

/-- What a declaration is found by. Functions and variables do not share names. -/
inductive Label where
  | func (name : String)
  | var (name : String)
deriving DecidableEq

def Image.labels (image : Image) : List (Nat × Label) :=
  image.funcs.map (fun d => (d.address, .func d.signature.name)) ++ image.vars.map fun d => (d.address, .var d.name)

namespace Module

variable {m n : Module} {image : Image} {t : EntityTable}

def entity? (m : Module) : Label → Option Entity
  | .func name => (m.findFunc? name).map .func
  | .var name => (m.findGlobal? name).map .var

/-! ### Names -/

theorem getElem?_of_findIdx? {xs : List String} {name : String} {i : Nat} (found : xs.findIdx? (· = name) = some i) :
    xs[i]? = some name := by
  obtain ⟨inside, same, -⟩ := List.findIdx?_eq_some_iff_getElem.mp found
  rw [List.getElem?_eq_getElem inside, of_decide_eq_true same]

theorem names_of_findFunc? {name : String} {f : FuncId} (found : m.findFunc? name = some f) :
    m.names[f.index]? = some name := by
  rw [findFunc?_eq] at found
  obtain ⟨i, at_, rfl⟩ := Option.map_eq_some_iff.mp found
  exact getElem?_of_findIdx? at_

theorem symbols_of_findGlobal? {symbol : String} {id : GlobalId} (found : m.findGlobal? symbol = some id) :
    m.symbols[id.index]? = some symbol := by
  rw [findGlobal?_eq] at found
  obtain ⟨i, at_, rfl⟩ := Option.map_eq_some_iff.mp found
  exact getElem?_of_findIdx? at_

/-- No two labels are of one entity. -/
theorem entity?_unique {l k : Label} {e : Entity} (first : m.entity? l = some e) (second : m.entity? k = some e) :
    l = k := by
  cases l <;> cases k <;> obtain ⟨x, foundX, rfl⟩ := Option.map_eq_some_iff.mp first <;>
    obtain ⟨y, foundY, same⟩ := Option.map_eq_some_iff.mp second <;> cases same
  next =>
    exact congrArg Label.func (Option.some.inj ((names_of_findFunc? foundX).symm.trans (names_of_findFunc? foundY)))
  next =>
    exact congrArg Label.var
      (Option.some.inj ((symbols_of_findGlobal? foundX).symm.trans (symbols_of_findGlobal? foundY)))

theorem Declares.entity? (declares : m.Declares n) {l : Label} {e : Entity} (found : m.entity? l = some e) :
    n.entity? l = some e := by
  cases l <;> obtain ⟨x, known, rfl⟩ := Option.map_eq_some_iff.mp found
  next => exact Option.map_eq_some_iff.mpr ⟨x, declares.findFunc? known, rfl⟩
  next => exact Option.map_eq_some_iff.mpr ⟨x, declares.findGlobal? known, rfl⟩

/-! ### Declaring -/

/-- The entity of a label, at the address of the declaration. -/
def Becomes (m : Module) (d : Nat × Label) (e : Nat × Entity) : Prop :=
  d.1 = e.1 ∧ m.entity? d.2 = some e.2

/-- Declaring in turn gives each declaration its entity. -/
theorem declareEach_becomes {α β : Type} (address : α → Nat) (label : α → Label) (entity : β → Entity)
    {declare : Module → α → Module × β} (declares : ∀ m d, m.Declares (declare m d).1 ∧
      (declare m d).1.entity? (label d) = some (entity (declare m d).2)) (ds : List α) (m : Module)
    (done : List (Nat × β)) : ∃ n ids, declareEach (fun d b => (address d, b)) declare ds (m, done) = (n, done ++ ids) ∧
      m.Declares n ∧ List.Forall₂ n.Becomes (ds.map fun d => (address d, label d))
        (ids.map fun p => (p.1, entity p.2)) := by
  induction ds generalizing m done with
  | nil => exact ⟨m, [], by rw [List.append_nil]; rfl, .refl m, .nil⟩
  | cons d ds ih =>
    obtain ⟨first, here⟩ := declares m d
    -- What is declared later leaves names as they are, so the first label still has its entity.
    obtain ⟨n, ids, rest, more, all⟩ := ih (declare m d).1 (done ++ [(address d, (declare m d).2)])
    refine ⟨n, (address d, (declare m d).2) :: ids, ?_, first.trans more, .cons ⟨rfl, more.entity? here⟩ all⟩
    rw [List.append_cons]
    exact rest

theorem exists_entity {ds : List (Nat × Label)} {es : List (Nat × Entity)} (becomes : List.Forall₂ m.Becomes ds es) :
    (∀ d ∈ ds, ∃ e ∈ es, m.Becomes d e) ∧ ∀ e ∈ es, ∃ d ∈ ds, m.Becomes d e := by
  induction becomes with
  | nil => exact ⟨nofun, nofun⟩
  | @cons d e ds es here _ ih =>
    refine ⟨List.forall_mem_cons.mpr ⟨⟨e, List.mem_cons_self, here⟩, fun d' member => ?_⟩,
      List.forall_mem_cons.mpr ⟨⟨d, List.mem_cons_self, here⟩, fun e' member => ?_⟩⟩
    · obtain ⟨e', found, rest⟩ := ih.1 d' member
      exact ⟨e', List.mem_cons_of_mem e found, rest⟩
    · obtain ⟨d', found, rest⟩ := ih.2 e' member
      exact ⟨d', List.mem_cons_of_mem d found, rest⟩

/-- The entities of an image as they were declared, functions first. -/
def listed (funcs : List (Nat × FuncId)) (vars : List (Nat × GlobalId)) : List (Nat × Entity) :=
  funcs.map (fun p => (p.1, .func p.2)) ++ vars.map fun p => (p.1, .var p.2)

theorem declareImage_becomes (m : Module) (image : Image) : ∃ n funcs vars, m.declareImage image = (n, funcs, vars) ∧
    List.Forall₂ n.Becomes image.labels (listed funcs vars) := by
  obtain ⟨m₁, funcs, first, -, functions⟩ := declareEach_becomes FunctionDecl.address
    (fun d => .func d.signature.name) Entity.func (fun m d => ⟨(m.declareFunction_declares d).1,
      Option.map_eq_some_iff.mpr ⟨_, (m.declareFunction_declares d).2, rfl⟩⟩) image.funcs m []
  obtain ⟨n, vars, second, more, variables_⟩ := declareEach_becomes VariableDecl.address
    (fun d => .var d.name) Entity.var (fun m d => ⟨(m.declareVariable_declares d).1,
      Option.map_eq_some_iff.mpr ⟨_, (m.declareVariable_declares d).2, rfl⟩⟩) image.vars m₁ []
  refine ⟨n, funcs, vars, ?_, List.rel_append ?_ variables_⟩
  · simp only [declareImage_eq, first, second, List.nil_append]
  · exact functions.imp fun d e ⟨same, found⟩ => ⟨same, more.entity? found⟩

/-! ### Placing -/

/-- What lies at an address: the last function declared there, or else the first of the largest variables. -/
def holder? (m : Module) (funcs : List (Nat × FuncId)) (vars : List (Nat × GlobalId)) (a : Nat) : Option Entity :=
  ((funcs.filter (·.1 = a)).getLast?.map fun p => Entity.func p.2).or
    (((vars.filter (·.1 = a)).argmax fun p => m.variableSize p.2).map fun p => .var p.2)

theorem holder?_listed {funcs : List (Nat × FuncId)} {vars : List (Nat × GlobalId)} {a : Nat} {e : Entity}
    (held : m.holder? funcs vars a = some e) : (a, e) ∈ listed funcs vars := by
  rcases Option.or_eq_some_iff.mp held with function | ⟨-, variable_⟩
  · obtain ⟨⟨b, f⟩, last, rfl⟩ := Option.map_eq_some_iff.mp function
    obtain ⟨member, here⟩ := List.mem_filter.mp (List.mem_of_getLast? last)
    cases of_decide_eq_true here
    exact List.mem_append_left _ (List.mem_map_of_mem member)
  · obtain ⟨⟨b, id⟩, largest, rfl⟩ := Option.map_eq_some_iff.mp variable_
    obtain ⟨member, here⟩ := List.mem_filter.mp (List.argmax_mem largest)
    cases of_decide_eq_true here
    exact List.mem_append_right _ (List.mem_map_of_mem member)

/-- The entry of the last function at an address. -/
def lastFunc? (m : Module) (funcs : List (Nat × FuncId)) (a : Nat) : Option (Entity × Nat) :=
  (funcs.filter (·.1 = a)).getLast?.map fun p => (.func p.2, m.layout.pointerBytes)

/-- The entry of the first of the largest variables at an address. -/
def largestVar? (m : Module) (vars : List (Nat × GlobalId)) (a : Nat) : Option (Entity × Nat) :=
  ((vars.filter (·.1 = a)).argmax fun p => m.variableSize p.2).map fun p => (.var p.2, m.variableSize p.2)

theorem find?_placeFuncs (m : Module) (funcs : List (Nat × FuncId)) (a : Nat) :
    (m.placeFuncs funcs (.empty, [])).1.entities.find? a = m.lastFunc? funcs a := by
  induction funcs using List.reverseRecOn with
  | nil => rfl
  | append_singleton funcs p ih =>
    rw [placeFuncs, List.foldl_append]
    change ((EntityTable.insertFunc _ m p.1 p.2).1.entities).find? a = _
    rw [EntityTable.insertFunc, AddressMap.find?_insert, lastFunc?, List.filter_append]
    by_cases here : a = p.1
    · simp [here]
    · rw [if_neg here, List.filter_singleton, decide_eq_false (Ne.symm here), cond_false, List.append_nil]
      exact ih

def insertVars (m : Module) (vars : List (Nat × GlobalId)) (t : EntityTable) : EntityTable :=
  vars.foldl (fun t v => (t.insertVar m v.1 v.2 (m.variableSize v.2)).1) t

theorem placeVariables_ok {vars : List (Nat × GlobalId)} (known : ∀ v ∈ vars, (m.global? v.2).isSome)
    {u : EntityTable} {ws stop : List Warning} (run : (vars.foldlM m.placeVariable t).run.run ws = (.ok u, stop)) :
    u = m.insertVars vars t := by
  induction vars generalizing t ws with
  | nil => exact (Recovering.pure_ok run).1.symm
  | cons v vars ih =>
    obtain ⟨here, rest⟩ := List.forall_mem_cons.mp known
    rw [List.foldlM_cons] at run
    obtain ⟨t₁, mid, first, run⟩ := Recovering.bind_ok run
    obtain ⟨-, rfl⟩ := placeVariable_ok here first
    exact ih rest run

theorem find?_insertVars (m : Module) (vars : List (Nat × GlobalId)) (a : Nat)
    (funcs : ∀ e, t.entities.find? a = some e → ∃ f, e.1 = .func f) :
    (m.insertVars vars t).entities.find? a = (t.entities.find? a).or (m.largestVar? vars a) := by
  -- From the back: each variable is compared with the one that was left by those before it.
  induction vars using List.reverseRecOn with
  | nil => rw [largestVar?, List.filter_nil, List.argmax_nil, Option.map_none, Option.or_none]; rfl
  | append_singleton vars p ih =>
    rw [insertVars, List.foldl_append] at *
    change (EntityTable.insertVar _ m p.1 p.2 _).1.entities.find? a = _
    rw [EntityTable.find?_insertVar, largestVar?, List.filter_append, List.filter_singleton]
    by_cases here : a = p.1
    · subst here
      rw [if_pos rfl, ih, decide_eq_true rfl, cond_true, List.argmax_concat]
      cases held : t.entities.find? p.1 with
      | some e =>
        obtain ⟨f, function⟩ := funcs e held
        obtain ⟨entity, size⟩ := e
        cases function
        rfl
      | none =>
        rw [Option.none_or, Option.none_or, largestVar?]
        cases (vars.filter (·.1 = p.1)).argmax fun p => m.variableSize p.2 with
        | none => rfl
        | some q =>
          simp only [Option.map_some, EntityTable.heldAfter]
          -- A variable that is there already is no larger than itself.
          by_cases larger : m.variableSize q.2 < m.variableSize p.2
          · have differ : q.2 ≠ p.2 := fun same => (lt_irrefl _ (same ▸ larger))
            simp [larger, differ, not_le.mpr larger]
          · simp [larger, not_lt.mp larger]
    · rw [if_neg here, ih, largestVar?]
      simp [Ne.symm here]

theorem get?_placeImage {funcs : List (Nat × FuncId)} {vars : List (Nat × GlobalId)}
    (known : ∀ v ∈ vars, (n.global? v.2).isSome) {ws stop : List Warning}
    (run : (vars.foldlM n.placeVariable (n.placeFuncs funcs (.empty, [])).1).run.run ws = (.ok t, stop)) (a : Nat) :
    t.get? a = n.holder? funcs vars a := by
  rw [placeVariables_ok known run, EntityTable.get?, find?_insertVars, find?_placeFuncs, holder?, lastFunc?,
    largestVar?]
  · cases (funcs.filter (·.1 = a)).getLast? <;> simp [Function.comp_def]
  · intro e held
    rw [find?_placeFuncs, lastFunc?] at held
    obtain ⟨p, -, rfl⟩ := Option.map_eq_some_iff.mp held
    exact ⟨p.2, rfl⟩

/-- A variable that was declared at the address of another one. -/
def Contested (vars : List (Nat × GlobalId)) (id : GlobalId) : Prop :=
  ∃ a other, (a, id) ∈ vars ∧ (a, other) ∈ vars ∧ other ≠ id

/-- What is largest of a list stays so if it gets no smaller and what is largest then has kept its size. -/
theorem argmax_of_grown {α : Type} [DecidableEq α] {xs : List α} {small large : α → Nat} {x y : α}
    (before : xs.argmax small = some x) (after : xs.argmax large = some y) (kept : small y = large y)
    (fits : x ≠ y → small x ≤ large x) : x = y := by
  obtain ⟨member, most, first⟩ := List.mem_argmax_iff.mp before
  obtain ⟨member', most', first'⟩ := List.mem_argmax_iff.mp after
  by_contra differ
  have grown := fits differ
  have fewer := most y member'
  have more := most' x member
  -- Both are as large as each other before and after, and of such the first is taken.
  have inFront := first y member' (by omega)
  have behind := first' x member (by omega)
  exact differ ((List.idxOf_inj member).mp (Nat.le_antisymm inFront behind))

/-- Where variables that compete for an address have kept or gained size, the entity at an address is the one that was
there, or a variable that gained. -/
theorem holder?_of_grown {funcs : List (Nat × FuncId)} {vars : List (Nat × GlobalId)} {k : Module}
    (fits : ∀ id, Contested vars id → n.variableSize id ≤ k.variableSize id) {a : Nat} {e : Entity}
    (held : k.holder? funcs vars a = some e) :
    n.holder? funcs vars a = some e ∨
      ∃ id, e = .var id ∧ (a, id) ∈ vars ∧ n.variableSize id ≠ k.variableSize id := by
  unfold holder? at held ⊢
  cases last : (funcs.filter (·.1 = a)).getLast? with
  | some f =>
    rw [last] at held
    exact .inl held
  | none =>
    rw [last, Option.map_none, Option.none_or] at held
    rw [Option.map_none, Option.none_or]
    obtain ⟨q, after, rfl⟩ := Option.map_eq_some_iff.mp held
    have declared {v : Nat × GlobalId} (inside : v ∈ vars.filter (·.1 = a)) : v.1 = a ∧ v ∈ vars :=
      ⟨of_decide_eq_true (List.mem_filter.mp inside).2, (List.mem_filter.mp inside).1⟩
    have member := List.argmax_mem after
    obtain ⟨rfl, listed⟩ := declared member
    by_cases kept : n.variableSize q.2 = k.variableSize q.2
    · cases before : (vars.filter (·.1 = q.1)).argmax fun p => n.variableSize p.2 with
      | none => exact absurd (List.argmax_eq_none.mp before) (List.ne_nil_of_mem member)
      | some p =>
        obtain ⟨here, listed'⟩ := declared (List.argmax_mem before)
        have same : p = q := argmax_of_grown before after kept fun differ =>
          fits p.2 ⟨q.1, q.2, here ▸ listed', listed, fun equal => differ (Prod.ext here equal.symm)⟩
        exact .inl (by rw [Option.map_some, same])
    · exact .inr ⟨q.2, rfl, listed, kept⟩

/-- Declarations become the entities that their labels tell apart. Of those at an address, one is placed there, and
one entity at two addresses is one that is declared at both. -/
theorem placeImage_separates_labels {ws stop : List Warning}
    (run : (m.placeImage image).run.run ws = (.ok (n, t), stop)) :
    ∃ funcs vars, m.declareImage image = (n, funcs, vars) ∧
      List.Forall₂ n.Becomes image.labels (listed funcs vars) ∧
      (∀ d ∈ image.labels, ∀ d' ∈ image.labels, n.entity? d.2 = n.entity? d'.2 ↔ d.2 = d'.2) ∧
      (∀ a, t.get? a = n.holder? funcs vars a) ∧
      (∀ a b e, t.get? a = some e → t.get? b = some e →
        ∃ label, n.entity? label = some e ∧ (a, label) ∈ image.labels ∧ (b, label) ∈ image.labels) ∧
      ((∀ a b label, (a, label) ∈ image.labels → (b, label) ∈ image.labels → a = b) → t.Injective) := by
  obtain ⟨funcs, vars, mid, declared, placed⟩ := placeImage_ok run
  obtain ⟨n', funcs', vars', same, becomes⟩ := declareImage_becomes m image
  cases declared.symm.trans same
  obtain ⟨n', funcs', vars', same, -, known, -⟩ := declareImage_again m image
  cases declared.symm.trans same
  have holds := get?_placeImage known placed
  -- What is placed was listed, and what is listed was declared by a label.
  have labelled (a : Nat) (e : Entity) (held : t.get? a = some e) :
      ∃ label, n.entity? label = some e ∧ (a, label) ∈ image.labels := by
    obtain ⟨⟨b, label⟩, member, rfl, found⟩ := (exists_entity becomes).2 _ (holder?_listed (holds a ▸ held))
    exact ⟨label, found, member⟩
  have shared (a b : Nat) (e : Entity) (first : t.get? a = some e) (second : t.get? b = some e) :
      ∃ label, n.entity? label = some e ∧ (a, label) ∈ image.labels ∧ (b, label) ∈ image.labels := by
    obtain ⟨l, foundL, here⟩ := labelled a e first
    obtain ⟨k, foundK, there⟩ := labelled b e second
    exact ⟨l, foundL, here, entity?_unique foundL foundK ▸ there⟩
  refine ⟨funcs, vars, declared, becomes, fun d member d' member' => ⟨fun equal => ?_, fun equal => by rw [equal]⟩,
    holds, shared, fun once a b e first second => ?_⟩
  · obtain ⟨e, -, -, found⟩ := (exists_entity becomes).1 d member
    exact entity?_unique found (equal ▸ found)
  · obtain ⟨label, -, here, there⟩ := shared a b e first second
    exact once a b label here there

/-- A function, and two words in memory. -/
def wordImage (first second : String) : Image where
  kindAt _ := .global
  stackPointer := none
  funcs := [⟨0, ⟨"main", .exported, [], .unit, none, false, false⟩, [], [], ⟨.int .i64, .memory "RSP" 0⟩, "RSP", 8, 0⟩]
  vars := [⟨first, .int .i64, 4096⟩, ⟨second, .int .i64, 8192⟩]

def noCode : Module := .empty ⟨.x86_64, .unknown, .linux⟩

theorem noCode_separates_labels : ∃ n t, (noCode.placeImage (wordImage "total" "limit")).run.run [] = (.ok (n, t), []) ∧
    t.get? 0 = some (.func ⟨0⟩) ∧ t.get? 4096 = some (.var ⟨0⟩) ∧ t.get? 8192 = some (.var ⟨1⟩) ∧ t.Injective := by
  have found : ((noCode.placeImage (wordImage "total" "limit")).warnings.1.toOption.map fun r =>
      (r.2.get? 0, r.2.get? 4096, r.2.get? 8192)) = some (some (.func ⟨0⟩), some (.var ⟨0⟩), some (.var ⟨1⟩)) := by cbv
  have silent : (noCode.placeImage (wordImage "total" "limit")).warnings.2 = [] := by cbv
  obtain ⟨⟨n, t⟩, same, entities⟩ := Option.map_eq_some_iff.mp found
  have run : (noCode.placeImage (wordImage "total" "limit")).run.run [] = (.ok (n, t), []) :=
    Prod.ext (Recovering.ok_of_toOption same) silent
  simp only [Prod.mk.injEq] at entities
  obtain ⟨main, total, limit⟩ := entities
  obtain ⟨_, _, -, -, -, -, -, injective⟩ := placeImage_separates_labels run
  refine ⟨n, t, run, main, total, limit, injective fun a b label first second => ?_⟩
  simp only [Image.labels, wordImage, List.map_cons, List.map_nil, List.cons_append, List.nil_append, List.mem_cons,
    List.not_mem_nil, or_false, Prod.mk.injEq] at first second
  rcases first with ⟨rfl, rfl⟩ | ⟨rfl, rfl⟩ | ⟨rfl, rfl⟩ <;>
    exact Eq.symm (by simpa using second)

/-- Two variables of one name are one variable, which then lies at both addresses. -/
theorem noCode_placed_twice : ∃ n t, (noCode.placeImage (wordImage "total" "total")).run.run [] = (.ok (n, t), []) ∧
    t.get? 4096 = some (.var ⟨0⟩) ∧ t.get? 8192 = some (.var ⟨0⟩) ∧ ¬ t.Injective := by
  have found : ((noCode.placeImage (wordImage "total" "total")).warnings.1.toOption.map fun r =>
      (r.2.get? 4096, r.2.get? 8192)) = some (some (.var ⟨0⟩), some (.var ⟨0⟩)) := by cbv
  have silent : (noCode.placeImage (wordImage "total" "total")).warnings.2 = [] := by cbv
  obtain ⟨⟨n, t⟩, same, entities⟩ := Option.map_eq_some_iff.mp found
  obtain ⟨low, high⟩ := Prod.mk.inj entities
  refine ⟨n, t, Prod.ext (Recovering.ok_of_toOption same) silent, low, high, fun injective => ?_⟩
  exact absurd (injective 4096 8192 _ low high) (by decide)

end Module

end VarRecovery
