import Mathlib
import VarRecovery.Proofs.Access.Collect
import VarRecovery.Proofs.Access.Plain
import VarRecovery.Proofs.Access.Trace
import VarRecovery.Proofs.Recovering

/-!
What is collected: of all accesses at constant addresses the first for each instruction, constant and type, by what
lies at the address.
-/

set_option autoImplicit false

namespace VarRecovery

namespace Cell

/-- What makes a cell one of its own. -/
def key (c : Cell) : FuncId × InstId × ValueId × Ty :=
  (c.func, c.user, c.value, c.ty)

def addFirst (cs : List Cell) (c : Cell) : List Cell :=
  if (cs.map key).contains c.key then cs else cs ++ [c]

/-- The first cell of each key. -/
def firsts (cs : List Cell) : List Cell :=
  cs.foldl addFirst []

variable {cs : List Cell} {c d : Cell} {k : FuncId × InstId × ValueId × Ty}

theorem addFirst_of_mem (old : c.key ∈ cs.map key) : addFirst cs c = cs :=
  if_pos (List.contains_iff_mem.mpr old)

theorem addFirst_of_not_mem (new : c.key ∉ cs.map key) : addFirst cs c = cs ++ [c] :=
  if_neg fun there => new (List.contains_iff_mem.mp there)

theorem firsts_concat : firsts (cs ++ [c]) = addFirst (firsts cs) c := by
  rw [firsts, List.foldl_append]
  rfl

theorem mem_keys_firsts : k ∈ (firsts cs).map key ↔ k ∈ cs.map key := by
  induction cs using List.reverseRec with
  | nil => rfl
  | append_singleton cs c ih =>
    rw [firsts_concat, List.map_append, List.mem_append, ← ih]
    by_cases old : c.key ∈ (firsts cs).map key
    · rw [addFirst_of_mem old]
      refine ⟨.inl, fun either => either.elim id fun last => ?_⟩
      rw [List.mem_singleton.mp last]
      exact old
    · rw [addFirst_of_not_mem old, List.map_append, List.mem_append]

/-- Among the first cells of each key, the cell of a key is the first that has it. -/
theorem filter_firsts (cs : List Cell) (k : FuncId × InstId × ValueId × Ty) :
    (firsts cs).filter (·.key = k) = (cs.find? (·.key = k)).toList := by
  induction cs using List.reverseRec with
  | nil => rfl
  | append_singleton cs c ih =>
    have known : c.key ∈ (firsts cs).map key ↔ ∃ d ∈ cs, d.key = c.key := by rw [mem_keys_firsts, List.mem_map]
    rw [firsts_concat, List.find?_append]
    by_cases old : c.key ∈ (firsts cs).map key
    · rw [addFirst_of_mem old, ih]
      cases found : cs.find? (·.key = k) with
      | some d => rfl
      | none =>
        obtain ⟨d, member, same⟩ := known.mp old
        have differ : c.key ≠ k := by simpa [same] using List.find?_eq_none.mp found d member
        simp [differ]
    · rw [addFirst_of_not_mem old, List.filter_append, ih]
      cases found : cs.find? (·.key = k) with
      | some d =>
        have differ : c.key ≠ k := fun here => old (known.mpr
          ⟨d, List.mem_of_find?_eq_some found, by simpa [here] using List.find?_some found⟩)
        simp [differ]
      | none => by_cases here : c.key = k <;> simp [here]

theorem mem_firsts : c ∈ firsts cs ↔ cs.find? (·.key = c.key) = some c := by
  have same : c ∈ firsts cs ↔ c ∈ (firsts cs).filter (·.key = c.key) := by simp
  rw [same, filter_firsts, Option.mem_toList]

end Cell

namespace Cells

/-- The functions that are listed have cells on the stack, and each is listed once. -/
structure Filed (cs : Cells) : Prop where
  nonempty : ∀ s ∈ cs.stack, s.2 ≠ []
  distinct : (cs.stack.map Prod.fst).Nodup

variable {cs : Cells} {c d : Cell} {f : FuncId} {stack : List (FuncId × List Cell)}

theorem keys_addTo : (addTo c stack).map Prod.fst =
    if c.func ∈ stack.map Prod.fst then stack.map Prod.fst else stack.map Prod.fst ++ [c.func] := by
  induction stack with
  | nil => rfl
  | cons s rest ih =>
    obtain ⟨g, cells⟩ := s
    unfold addTo
    by_cases here : g = c.func
    · simp [here]
    · have there : c.func ≠ g := fun same => here same.symm
      rw [if_neg here, List.map_cons, ih]
      by_cases old : c.func ∈ rest.map Prod.fst <;> simp [old, there]

theorem lookup_addTo : (addTo c stack).lookup f =
    if f = c.func then some ((stack.lookup f).getD [] ++ [c]) else stack.lookup f := by
  induction stack with
  | nil =>
    by_cases here : f = c.func
    · simp [addTo, here]
    · have apart : (f == c.func) = false := by simpa using here
      simp [addTo, List.lookup_cons, apart, here]
  | cons s rest ih =>
    obtain ⟨g, cells⟩ := s
    unfold addTo
    by_cases at_ : f = g
    · subst at_
      by_cases here : f = c.func <;> simp [here]
    · have apart : (f == g) = false := by simpa using at_
      by_cases here : g = c.func
      · rw [if_pos here, List.lookup_cons, List.lookup_cons, apart]
        simp [show f ≠ c.func from fun same => at_ (same.trans here.symm)]
      · rw [if_neg here, List.lookup_cons, List.lookup_cons, apart, ih]

theorem stackOf_addStack : (cs.addStack c).stackOf f = if f = c.func then cs.stackOf f ++ [c] else cs.stackOf f := by
  unfold stackOf addStack
  rw [lookup_addTo]
  split <;> rfl

theorem Filed.addStack (filed : cs.Filed) (c : Cell) : (cs.addStack c).Filed := by
  refine ⟨?_, ?_⟩
  · have general (stack : List (FuncId × List Cell)) (nonempty : ∀ s ∈ stack, s.2 ≠ []) :
        ∀ s ∈ addTo c stack, s.2 ≠ [] := by
      induction stack with
      | nil => simp [addTo]
      | cons s rest ih =>
        obtain ⟨here, others⟩ := List.forall_mem_cons.mp nonempty
        unfold addTo
        split
        next => exact List.forall_mem_cons.mpr ⟨by simp, others⟩
        next => exact List.forall_mem_cons.mpr ⟨here, ih others⟩
    exact general cs.stack filed.nonempty
  · rw [Cells.addStack, keys_addTo]
    split
    next => exact filed.distinct
    next new => exact filed.distinct.append (List.nodup_singleton _) (by simpa using new)

theorem Filed.stackOf (filed : cs.Filed) {s : FuncId × List Cell} (member : s ∈ cs.stack) : cs.stackOf s.1 = s.2 := by
  have general (stack : List (FuncId × List Cell)) (distinct : (stack.map Prod.fst).Nodup) (member : s ∈ stack) :
      stack.lookup s.1 = some s.2 := by
    induction stack with
    | nil => cases member
    | cons first rest ih =>
      obtain ⟨new, distinct⟩ := List.nodup_cons.mp distinct
      rcases List.mem_cons.mp member with rfl | inside
      · exact List.lookup_cons_self
      · have differ : s.1 ≠ first.1 := fun same => new (same ▸ List.mem_map_of_mem inside)
        rw [List.lookup_cons, show (s.1 == first.1) = false by simpa using differ, ih distinct inside]
  rw [Cells.stackOf, general cs.stack filed.distinct member]
  rfl

theorem mem_of_mem_stackOf (member : c ∈ cs.stackOf f) : ∃ s ∈ cs.stack, s.1 = f ∧ c ∈ s.2 := by
  unfold stackOf at member
  cases found : cs.stack.lookup f with
  | none => simp [found] at member
  | some cells =>
    obtain ⟨before, behind, same, -⟩ := List.lookup_eq_some_iff.mp found
    rw [found] at member
    exact ⟨(f, cells), by simp [same], rfl, member⟩

end Cells

namespace Graph

variable {g : Graph}

/-- No address comes from the operands of a call, so the way to a use by a call has no steps. -/
theorem Leads.eq_of_call {use last : Use} (way : g.Leads use last) {callee : FuncId} {args : List ValueId} {ret : Ty}
    (call : g.inst? last.1 = some (.call callee args ret)) : use = last := by
  cases way with
  | refl => rfl
  | tail _ step =>
    obtain ⟨inst, -, found, operand⟩ := mem_sources.mp step
    cases call.symm.trans found
    cases operand

end Graph

namespace Collection

variable {image : Image} {accesses : List Cell} {c : Collection} {d : Cell}

/-- What has come of the accesses so far: the first of each key is where it belongs. -/
structure Records (image : Image) (accesses : List Cell) (c : Collection) : Prop where
  seen : c.seen = (Cell.firsts accesses).map Cell.key
  globals : c.cells.globals = (Cell.firsts accesses).filter fun d =>
    image.kindAt d.address = .global ∨ image.kindAt d.address = .code
  stack : ∀ f, c.cells.stackOf f = (Cell.firsts accesses).filter fun d =>
    d.func = f ∧ image.kindAt d.address = .stack
  filed : c.cells.Filed

theorem Records.empty (image : Image) : Records image [] .empty :=
  ⟨rfl, rfl, fun _ => rfl, nofun, List.nodup_nil⟩

theorem Records.addCell (records : Records image accesses c) (d : Cell) :
    Records image (accesses ++ [d]) (addCell image c d) := by
  unfold Collection.addCell
  dsimp only
  rw [← Cell.key]
  have seen : (d.key ∈ c.seen) = (d.key ∈ (Cell.firsts accesses).map Cell.key) := by rw [records.seen]
  by_cases old : d.key ∈ c.seen
  · have same : Cell.firsts (accesses ++ [d]) = Cell.firsts accesses := by
      rw [Cell.firsts_concat, Cell.addFirst_of_mem (seen ▸ old)]
    rw [if_pos old]
    exact ⟨same ▸ records.seen, same ▸ records.globals, same ▸ records.stack, records.filed⟩
  · have longer : Cell.firsts (accesses ++ [d]) = Cell.firsts accesses ++ [d] := by
      rw [Cell.firsts_concat, Cell.addFirst_of_not_mem (seen ▸ old)]
    rw [if_neg old]
    refine ⟨by rw [longer, List.map_append, records.seen]; rfl, ?globals, fun f => ?stack, ?filed⟩
    case globals =>
      rw [longer, List.filter_append, ← records.globals]
      cases kind : image.kindAt d.address <;> simp [kind, Cells.addGlobal, Cells.addStack]
    case stack =>
      rw [longer, List.filter_append, ← records.stack]
      cases kind : image.kindAt d.address with
      | stack =>
        simp only [Cells.stackOf_addStack, List.filter_singleton, kind]
        by_cases here : f = d.func
        · simp [here]
        · simp [here, show d.func ≠ f from fun same => here same.symm]
      | global | code | unknown => simp [kind, Cells.addGlobal, Cells.stackOf]
    case filed =>
      cases image.kindAt d.address with
      | stack => exact records.filed.addStack d
      | global | code | unknown => exact ⟨records.filed.nonempty, records.filed.distinct⟩

theorem records_foldl (image : Image) (accesses : List Cell) :
    Records image accesses (accesses.foldl (Collection.addCell image) .empty) := by
  induction accesses using List.reverseRec with
  | nil => exact .empty image
  | append_singleton accesses d ih =>
    rw [List.foldl_append]
    exact ih.addCell d

theorem mem_cellsOf {id : FuncId} {g : Graph} {use : AddressUse} {size : Nat} : d ∈ cellsOf id g use size ↔
    g.Leads (use.user, use.address) (d.user, d.value) ∧
      ∃ i, g.imm? d.value = some i ∧ d = ⟨id, i.toAddress, use.ty, size, use.access, d.user, d.value⟩ := by
  simp only [cellsOf, List.mem_filterMap, Option.map_eq_some_iff]
  constructor
  · rintro ⟨⟨user, value⟩, reached, i, found, rfl⟩
    exact ⟨(Graph.mem_traceConstants.mp reached).2, i, found, rfl⟩
  · rintro ⟨way, i, found, same⟩
    have constant : g.isImm d.value = true := by rw [Graph.isImm, found]; rfl
    exact ⟨(d.user, d.value), Graph.mem_traceConstants.mpr ⟨constant, way⟩, i, found, same.symm⟩

end Collection

namespace Module

variable {m n : Module} {start : String} {image : Image} {cells : Cells} {id : FuncId} {f : Func} {c : Cell}

/-- A function uses a constant as an address, or computes one from it. -/
def Traces (m : Module) (start : String) (id : FuncId) (use : Graph.Use) : Prop :=
  ∃ f, m.func? id = some f ∧ f.hasBody = true ∧ ∃ root ∈ m.addressUses start f,
    f.graph.Leads (root.user, root.address) use

/-- A search begins at a call or a cast, so it comes to any other instruction by way of what that makes. -/
theorem Traces.addressOperand {use : Graph.Use} {inst : Inst} (traces : m.Traces start id use)
    (made : (m.graph id).inst? use.1 = some inst) (other : ∀ root, ¬m.AccessedBy start root inst) :
    use.2 ∈ (m.graph id).addressOperands inst := by
  obtain ⟨f, found, -, root, member, way⟩ := traces
  rw [graph_of_func? found] at made ⊢
  rcases way.cases_tail with rfl | ⟨before, -, step⟩
  · obtain ⟨first, known, access⟩ := user_of_mem_addressUses member
    cases known.symm.trans made
    exact absurd access (other root)
  · obtain ⟨last, -, known, operand⟩ := Graph.mem_sources.mp step
    cases made.symm.trans known
    exact operand

/-- The bytes that an access takes, if it takes any. -/
def accessSize (m : Module) (f : Func) (ty : Ty) : Nat :=
  (m.sizeOfAccess f ty).toOption.getD 0

/-- What a function accesses at constant addresses, in the order in which it is met. -/
def accessesOf (m : Module) (start : String) (id : FuncId) : List Cell :=
  match m.func? id with
  | some f => (m.addressUses start f).flatMap fun use => Collection.cellsOf id f.graph use (m.accessSize f use.ty)
  | none => []

def accesses (m : Module) (start : String) : List Cell :=
  m.definedFuncs.flatMap (m.accessesOf start)

/-- An access at a constant address, with the address that the constant has. -/
def Accesses (m : Module) (start : String) (c : Cell) : Prop :=
  ∃ f, m.func? c.func = some f ∧ f.hasBody = true ∧ ∃ use ∈ m.addressUses start f,
    c ∈ Collection.cellsOf c.func f.graph use (m.accessSize f use.ty)

theorem mem_accesses : c ∈ m.accesses start ↔ m.Accesses start c := by
  unfold accesses accessesOf Accesses
  rw [List.mem_flatMap]
  constructor
  · rintro ⟨id, defined, member⟩
    obtain ⟨f, found, body⟩ := mem_definedFuncs.mp defined
    rw [found] at member
    obtain ⟨use, inside, cell⟩ := List.mem_flatMap.mp member
    obtain ⟨-, i, -, same⟩ := Collection.mem_cellsOf.mp cell
    obtain rfl : c.func = id := congrArg Cell.func same
    exact ⟨f, found, body, use, inside, cell⟩
  · rintro ⟨f, found, body, use, inside, cell⟩
    refine ⟨c.func, mem_definedFuncs.mpr ⟨f, found, body⟩, ?_⟩
    rw [found]
    exact List.mem_flatMap.mpr ⟨use, inside, cell⟩

theorem Accesses.traces (accesses : m.Accesses start c) : m.Traces start c.func (c.user, c.value) ∧
    ∃ i, (m.graph c.func).imm? c.value = some i ∧ c.address = i.toAddress := by
  obtain ⟨f, found, body, use, member, cell⟩ := accesses
  obtain ⟨way, i, constant, same⟩ := Collection.mem_cellsOf.mp cell
  rw [graph_of_func? found]
  exact ⟨⟨f, found, body, use, member, way⟩, i, constant, congrArg Cell.address same⟩

/-- Whatever a function accesses has a size. -/
def Sizes (m : Module) (start : String) (id : FuncId) : Prop :=
  ∀ f, m.func? id = some f → ∀ use ∈ m.addressUses start f, m.sizeOfAccess f use.ty = .ok (m.accessSize f use.ty)

/-- What the uses of one function add. -/
theorem addFunc_ok {c d : Collection} (defined : id ∈ m.definedFuncs)
    (h : Collection.addFunc image start m c id = .ok d) :
    m.Sizes start id ∧ d = (m.accessesOf start id).foldl (Collection.addCell image) c := by
  obtain ⟨f, found, -⟩ := mem_definedFuncs.mp defined
  unfold Collection.addFunc at h
  unfold accessesOf Sizes
  rw [found] at h ⊢
  obtain ⟨sizes, done⟩ := Recovering.foldlM_eq_foldl (Q := fun use => m.sizeOfAccess f use.ty = .ok (m.accessSize f use.ty))
    (fun use => Collection.cellsOf id f.graph use (m.accessSize f use.ty)) (fun use _ a b added => by
      obtain ⟨size, sized, done⟩ := Recovering.bind_eq_ok added
      have same : m.accessSize f use.ty = size := by rw [accessSize, sized]; rfl
      cases done
      rw [same]
      exact ⟨sized, rfl⟩) h
  refine ⟨fun g again => ?_, done⟩
  cases again
  exact sizes

/-- What is collected is recorded of exactly the accesses, the constant of each of which tells its address. -/
theorem collect_ok (h : m.collect image start = .ok (n, cells)) : n = m.materialize ∧
    (∀ id ∈ n.definedFuncs, n.Sizes start id) ∧
    ∃ c : Collection, cells = c.cells ∧ c.Records image (n.accesses start) := by
  obtain ⟨c, collected, done⟩ := Recovering.bind_eq_ok h
  cases done
  obtain ⟨sizes, rfl⟩ := Recovering.foldlM_eq_foldl (Q := m.materialize.Sizes start) (m.materialize.accessesOf start)
    (fun id defined a b added => addFunc_ok defined added) collected
  exact ⟨rfl, sizes, _, rfl, Collection.records_foldl image _⟩

/-- The first access of a key is at the address of the others. -/
theorem exists_first (access : m.Accesses start c) : ∃ d, (m.accesses start).find? (·.key = c.key) = some d ∧
    m.Accesses start d ∧ d.key = c.key ∧ d.address = c.address := by
  have there : ((m.accesses start).find? (·.key = c.key)).isSome :=
    List.find?_isSome.mpr ⟨c, mem_accesses.mpr access, decide_eq_true rfl⟩
  obtain ⟨d, found⟩ := Option.isSome_iff_exists.mp there
  have other := mem_accesses.mp (List.mem_of_find?_eq_some found)
  have same : d.key = c.key := by simpa using List.find?_some found
  refine ⟨d, found, other, same, ?_⟩
  obtain ⟨-, i, constant, here⟩ := access.traces
  obtain ⟨-, j, again, there⟩ := other.traces
  obtain ⟨func, -, value, -⟩ : d.func = c.func ∧ d.user = c.user ∧ d.value = c.value ∧ d.ty = c.ty := by
    simpa [Cell.key] using same
  rw [func, value, constant] at again
  rw [here, there, Option.some.inj again]

/-- The cells on the stack: where they are, and that there is one for each constant that is a stack address. -/
theorem collect_stack (h : m.collect image start = .ok (n, cells)) :
    (∀ s ∈ cells.stack, s.2 ≠ [] ∧ ∀ c ∈ s.2, c.func = s.1 ∧ n.Accesses start c ∧ image.kindAt c.address = .stack) ∧
    ∀ f use i, n.Traces start f use → (n.graph f).imm? use.2 = some i → image.kindAt i.toAddress = .stack →
      ∃ s ∈ cells.stack, s.1 = f ∧ ∃ c ∈ s.2, c.user = use.1 ∧ c.value = use.2 := by
  obtain ⟨-, -, c, rfl, records⟩ := collect_ok h
  refine ⟨fun s member => ⟨records.filed.nonempty s member, fun c inside => ?_⟩, fun f use i traces constant kind => ?_⟩
  · rw [← records.filed.stackOf member, records.stack, List.mem_filter, decide_eq_true_eq] at inside
    obtain ⟨first, own, kind⟩ := inside
    exact ⟨own, mem_accesses.mp (List.mem_of_find?_eq_some (Cell.mem_firsts.mp first)), kind⟩
  · obtain ⟨func, found, body, root, member, way⟩ := traces
    rw [graph_of_func? found] at constant
    let cell : Cell := ⟨f, i.toAddress, root.ty, n.accessSize func root.ty, root.access, use.1, use.2⟩
    have access : n.Accesses start cell :=
      ⟨func, found, body, root, member, Collection.mem_cellsOf.mpr ⟨way, i, constant, rfl⟩⟩
    obtain ⟨e, first, -, same, address⟩ := exists_first access
    obtain ⟨func, user, value, -⟩ : e.func = f ∧ e.user = use.1 ∧ e.value = use.2 ∧ e.ty = root.ty := by
      simpa [Cell.key, cell] using same
    have inside : e ∈ c.cells.stackOf f := by
      rw [records.stack, List.mem_filter, decide_eq_true_eq, Cell.mem_firsts, same]
      exact ⟨first, func, address ▸ kind⟩
    obtain ⟨s, listed, here, inside⟩ := Cells.mem_of_mem_stackOf inside
    exact ⟨s, listed, here, e, inside, user, value⟩

theorem collect_globals (h : m.collect image start = .ok (n, cells)) :
    ∀ c ∈ cells.globals, n.Accesses start c := by
  obtain ⟨-, -, c, rfl, records⟩ := collect_ok h
  intro d member
  rw [records.globals, List.mem_filter] at member
  exact mem_accesses.mp (List.mem_of_find?_eq_some (Cell.mem_firsts.mp member.1))

end Module

namespace Cells

/-- Of all cells with its key only this one is there: in the list for what lies at its address, if there is one. -/
def HasOnly (cs : Cells) (kind : ByteKind) (c : Cell) : Prop :=
  (∀ f, (cs.stackOf f).filter (·.key = c.key) = if c.func = f ∧ kind = .stack then [c] else []) ∧
    cs.globals.filter (·.key = c.key) = if kind = .global ∨ kind = .code then [c] else []

end Cells

theorem Collection.Records.hasOnly {image : Image} {accesses : List Cell} {c : Collection} {first : Cell}
    (records : c.Records image accesses) (found : accesses.find? (·.key = first.key) = some first) :
    c.cells.HasOnly (image.kindAt first.address) first := by
  have kept (p : Cell → Bool) : ((Cell.firsts accesses).filter p).filter (·.key = first.key) =
      if p first then [first] else [] := by
    rw [List.filter_comm, Cell.filter_firsts, found, Option.toList_some, List.filter_singleton, cond_eq_ite]
  refine ⟨fun f => ?_, ?_⟩
  · rw [records.stack, kept]
    simp only [decide_eq_true_eq]
  · rw [records.globals, kept]
    simp only [decide_eq_true_eq]

namespace Module

variable {m n : Module} {start : String} {image : Image} {cells : Cells}

/-- The cells are the first accesses of their instruction, constant and type, by what lies at the address. So for each
constant that an address is traced to there is exactly one cell, if something lies there. It is like the first access
with that key: where the constant is an operand of the accessing call itself, like the access in question. -/
theorem collect_records_firsts (h : m.collect image start = .ok (n, cells)) :
    (cells.globals = (Cell.firsts (n.accesses start)).filter fun c =>
      image.kindAt c.address = .global ∨ image.kindAt c.address = .code) ∧
    (∀ f, cells.stackOf f = (Cell.firsts (n.accesses start)).filter fun c =>
      c.func = f ∧ image.kindAt c.address = .stack) ∧
    (∀ s ∈ cells.stack, s.2 ≠ [] ∧ cells.stackOf s.1 = s.2) ∧ (cells.stack.map Prod.fst).Nodup ∧
    ∀ id ∈ n.definedFuncs, ∀ f, n.func? id = some f → ∀ use ∈ n.addressUses start f,
      ∀ u ∈ f.graph.traceConstants use.user use.address, ∃ i size first, f.graph.imm? u.2 = some i ∧
        n.sizeOfAccess f use.ty = .ok size ∧
        (n.accesses start).find? (·.key = (id, u.1, u.2, use.ty)) = some first ∧
        first.key = (id, u.1, u.2, use.ty) ∧ first.address = i.toAddress ∧ first.size = size ∧
        cells.HasOnly (image.kindAt i.toAddress) first ∧
        ((∃ callee args ret, f.graph.inst? u.1 = some (.call callee args ret)) → first.access = use.access) := by
  obtain ⟨-, sizes, c, rfl, records⟩ := collect_ok h
  refine ⟨records.globals, records.stack, fun s member => ⟨records.filed.nonempty s member, records.filed.stackOf member⟩,
    records.filed.distinct, fun id defined f found use member u traced => ?_⟩
  obtain ⟨constant, way⟩ := Graph.mem_traceConstants.mp traced
  obtain ⟨i, constant⟩ := Option.isSome_iff_exists.mp constant
  obtain ⟨g, again, body⟩ := mem_definedFuncs.mp defined
  cases found.symm.trans again
  let cell : Cell := ⟨id, i.toAddress, use.ty, n.accessSize f use.ty, use.access, u.1, u.2⟩
  have access : n.Accesses start cell :=
    ⟨f, found, body, use, member, Collection.mem_cellsOf.mpr ⟨way, i, constant, rfl⟩⟩
  obtain ⟨first, at_, ⟨g, again, -, root, listed, other⟩, same, address⟩ := exists_first access
  obtain ⟨func, user, value, ty⟩ : first.func = id ∧ first.user = u.1 ∧ first.value = u.2 ∧ first.ty = use.ty := by
    simpa [Cell.key, cell] using same
  rw [func] at again
  cases found.symm.trans again
  obtain ⟨path, j, -, entry⟩ := Collection.mem_cellsOf.mp other
  have sort : root.ty = use.ty := (congrArg Cell.ty entry).symm.trans ty
  refine ⟨i, n.accessSize f use.ty, first, constant, sizes id defined f found use member, at_, same, address, ?size,
    ?only, ?call⟩
  case size => rw [congrArg Cell.size entry, sort]
  case only =>
    rw [← show first.address = i.toAddress from address]
    exact records.hasOnly (same ▸ at_)
  -- No trace leads into a call, so both uses are those of the call itself, and it accesses one way.
  case call =>
    rintro ⟨callee, args, ret, call⟩
    rw [user, value] at path
    have here := congrArg Prod.fst (way.eq_of_call call)
    have there := congrArg Prod.fst (path.eq_of_call call)
    obtain ⟨_, known, access⟩ := user_of_mem_addressUses member
    cases known.symm.trans (here ▸ call)
    obtain ⟨_, known, recorded⟩ := user_of_mem_addressUses listed
    cases known.symm.trans (there ▸ call)
    obtain ⟨access⟩ := access
    obtain ⟨recorded⟩ := recorded
    rw [congrArg Cell.access entry, access, recorded]

/-- A read and then a write, at an address that is computed once from a constant. -/
def readThenWrite : Module :=
  let int := Ty.int .i64
  let f := (Func.declare ⟨"main", .exported, [int], .unit, none, false, false⟩ []).addBlock
  let f := (f.addImm (.ofInt .i64 4096)).1
  let f := (f.insert (.binary .add ⟨1⟩ ⟨0⟩) int (.bottom ⟨0⟩)).1
  let f := (f.insert (.call ⟨1⟩ [⟨0⟩, ⟨2⟩] int) int (.bottom ⟨0⟩)).1
  let f := (f.insert (.call ⟨2⟩ [⟨0⟩, ⟨2⟩, ⟨3⟩] int) int (.bottom ⟨0⟩)).1
  let f := (f.insertInst (.leave none) (.bottom ⟨0⟩)).1
  { empty ⟨.x86_64, .unknown, .linux⟩ with
    funcs := #[f, .declare ⟨"__relift_read_memory_64", .external, [int, int], int, none, false, false⟩ [],
      .declare ⟨"__relift_write_memory_64", .external, [int, int, int], int, none, false, false⟩ []] }

def readThenWriteImage : Image where
  kindAt address := if address = 4096 then .global else .unknown
  stackPointer := none
  funcs := []
  vars := []

def readUse : AddressUse := ⟨⟨1⟩, ⟨2⟩, .int .i64, ⟨true, false, false, false⟩⟩
def writeUse : AddressUse := ⟨⟨2⟩, ⟨2⟩, .int .i64, ⟨false, true, false, false⟩⟩

/-- Both uses are of the one constant. -/
theorem readThenWrite_uses : ∃ f, readThenWrite.materialize.func? ⟨0⟩ = some f ∧
    readThenWrite.materialize.addressUses "__relift_" f = [readUse, writeUse] ∧
    f.graph.traceConstants readUse.user readUse.address = [(⟨0⟩, ⟨1⟩)] ∧
    f.graph.traceConstants writeUse.user writeUse.address = [(⟨0⟩, ⟨1⟩)] ∧
    f.graph.imm? ⟨1⟩ = some (.ofInt .i64 4096) := by
  obtain ⟨f, found⟩ := Option.isSome_iff_exists.mp
    (show (readThenWrite.materialize.func? ⟨0⟩).isSome = true by decide +kernel)
  have of_all {α : Type} {p : Func → α} {r : α} (h : (readThenWrite.materialize.func? ⟨0⟩).map p = some r) : p f = r := by
    rw [found] at h
    exact Option.some.inj h
  -- Uses are compared field by field: the equations of the names of intrinsics are slow to derive, and the kernel does
  -- without them.
  have fields : (readThenWrite.materialize.addressUses "__relift_" f).map (fun u => (u.user, u.address, u.ty, u.access)) =
      [readUse, writeUse].map fun u => (u.user, u.address, u.ty, u.access) :=
    of_all (p := fun f => (readThenWrite.materialize.addressUses _ f).map fun u => (u.user, u.address, u.ty, u.access))
      (by decide +kernel)
  have uses : readThenWrite.materialize.addressUses "__relift_" f = [readUse, writeUse] :=
    List.map_injective_iff.mpr (fun u v same => by cases u; cases v; simpa using same) fields
  exact ⟨f, found, uses, of_all (p := fun f => f.graph.traceConstants _ _) (by cbv),
    of_all (p := fun f => f.graph.traceConstants _ _) (by cbv), of_all (p := fun f => f.graph.imm? _) (by decide +kernel)⟩

theorem readThenWrite_size (f : Func) : readThenWrite.materialize.sizeOfAccess f (.int .i64) = .ok 8 := by rfl

/-- One cell is collected, for the read. -/
theorem readThenWrite_run : ∃ cells, readThenWrite.collect readThenWriteImage "__relift_" =
    .ok (readThenWrite.materialize, cells) ∧ ⟨0⟩ ∈ readThenWrite.materialize.definedFuncs ∧
    cells.globals = [⟨⟨0⟩, 4096, .int .i64, 8, readUse.access, ⟨0⟩, ⟨1⟩⟩] := by
  obtain ⟨f, found, uses, first, second, constant⟩ := readThenWrite_uses
  have defined : readThenWrite.materialize.definedFuncs = [⟨0⟩] := by decide +kernel
  have there : (Imm.ofInt .i64 4096).toAddress = 4096 := by decide
  refine ⟨Cells.empty.addGlobal ⟨⟨0⟩, 4096, .int .i64, 8, readUse.access, ⟨0⟩, ⟨1⟩⟩, ?_, by simp [defined], by rfl⟩
  -- The write is of the same constant as the read, at the same type, so its cell is seen already.
  have int : readUse.ty = .int .i64 ∧ writeUse.ty = .int .i64 := ⟨rfl, rfl⟩
  simp [collect, defined, Collection.addFunc, found, uses, Collection.addUse, readThenWrite_size, int, Collection.cellsOf, first,
    second, constant, Collection.addCell, readThenWriteImage, there, bind, Except.bind, pure, Except.pure, Collection.empty]

theorem readThenWrite_records_one : ∃ n cells, ∃ first : Cell,
    readThenWrite.collect readThenWriteImage "__relift_" = .ok (n, cells) ∧ first.key = (⟨0⟩, ⟨0⟩, ⟨1⟩, .int .i64) ∧
      first.address = 4096 ∧ first.size = 8 ∧ cells.HasOnly .global first := by
  obtain ⟨cells, collected, defined, -⟩ := readThenWrite_run
  obtain ⟨f, found, uses, -, traced, constant⟩ := readThenWrite_uses
  obtain ⟨-, -, -, -, each⟩ := collect_records_firsts collected
  obtain ⟨i, size, first, again, sized, -, key, address, fits, only, -⟩ := each ⟨0⟩ defined f found writeUse
    (by rw [uses]; simp) (⟨0⟩, ⟨1⟩) (by rw [traced]; simp)
  cases again.symm.trans constant
  exact ⟨_, cells, first, collected, key, address,
    fits.trans (Except.ok.inj (sized.symm.trans (readThenWrite_size f))), only⟩

/-- The cell tells that the bytes are read, and not that they are written as well. -/
theorem readThenWrite_loses_store : ¬∀ (m n : Module) image start cells, m.collect image start = .ok (n, cells) →
    ∀ id ∈ n.definedFuncs, ∀ f, n.func? id = some f → ∀ use ∈ n.addressUses start f,
      ∀ u ∈ f.graph.traceConstants use.user use.address, ∀ i, f.graph.imm? u.2 = some i →
        image.kindAt i.toAddress = .global →
        ∃ c ∈ cells.globals, c.key = (id, u.1, u.2, use.ty) ∧ (use.access.isStore = true → c.access.isStore = true) := by
  intro claim
  obtain ⟨cells, collected, defined, globals⟩ := readThenWrite_run
  obtain ⟨f, found, uses, -, traced, constant⟩ := readThenWrite_uses
  obtain ⟨c, member, -, stores⟩ := claim _ _ _ _ _ collected ⟨0⟩ defined f found writeUse (by rw [uses]; simp) (⟨0⟩, ⟨1⟩)
    (by rw [traced]; simp) _ constant rfl
  rw [globals] at member
  cases List.mem_singleton.mp member
  exact absurd (stores rfl) (by decide)

end Module

end VarRecovery
