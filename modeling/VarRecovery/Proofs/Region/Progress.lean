import VarRecovery.Proofs.Access.Written
import VarRecovery.Proofs.Region.Coverage
import VarRecovery.Proofs.Region.Form

/-!
Building global variables never leaves cells alone. The run of the first of them has a variable or a function where it
starts when all runs are declared, so an instruction is written that takes its address.
-/

set_option autoImplicit false

namespace VarRecovery

namespace EntityTable

/-- Looking an address up finds what lies there, or a variable that covers it. -/
def Finds (t : EntityTable) (x : Nat) : Prop :=
  (t.get? x).isSome ∨ (t.covering? x).isSome

/-- Nothing changed up to an address. -/
structure SameUpTo (x : Nat) (t u : EntityTable) : Prop where
  find : ∀ a ≤ x, u.entities.find? a = t.entities.find? a
  size : t.maxVariableSize ≤ u.maxVariableSize

variable {t u s : EntityTable} {x a size : Nat} {id : GlobalId}

theorem SameUpTo.refl (x : Nat) (t : EntityTable) : SameUpTo x t t :=
  ⟨fun _ _ => rfl, Nat.le_refl _⟩

theorem SameUpTo.trans (first : SameUpTo x t u) (second : SameUpTo x u s) : SameUpTo x t s :=
  ⟨fun a below => (second.find a below).trans (first.find a below), Nat.le_trans first.size second.size⟩

theorem covering?_isSome_iff : (t.covering? x).isSome ↔ ∃ e : Nat × Entity × Nat,
    t.entities.find? e.1 = some e.2 ∧ x - t.maxVariableSize ≤ e.1 ∧ e.1 ≤ x ∧ (coveredBy? x e).isSome := by
  have entry (e : Nat × Entity × Nat) : e ∈ t.entities.entries ↔ t.entities.find? e.1 = some e.2 :=
    AddressMap.find?_eq_some_iff.symm
  simp only [covering?, List.findSome?_isSome_iff, AddressMap.mem_between, entry, and_assoc]

theorem SameUpTo.finds (same : SameUpTo x t u) (finds : t.Finds x) : u.Finds x := by
  refine finds.imp (fun here => ?_) fun covered => ?_
  · rwa [get?, same.find x (Nat.le_refl x)]
  · obtain ⟨e, found, near, below, covers⟩ := covering?_isSome_iff.mp covered
    have size := same.size
    exact covering?_isSome_iff.mpr ⟨e, (same.find e.1 below).trans found, by omega, below, covers⟩

theorem sameUpTo_putVar (behind : x < a) : SameUpTo x t (t.putVar a id size) where
  find b below := by rw [putVar, AddressMap.find?_insert, if_neg (by omega)]
  size := Nat.le_max_left _ _

theorem sameUpTo_resize (behind : x < a) : SameUpTo x t (t.resize a size) := by
  unfold resize
  split
  next => exact ⟨fun b below => by rw [AddressMap.find?_insert, if_neg (by omega)], Nat.le_max_left _ _⟩
  next => exact .refl x t

end EntityTable

namespace Run

variable {r q : Run} {runs : List Run} {m : Module} {t : EntityTable} {x : Nat}

theorem Declares.sameUpTo {n : Module} {u : EntityTable} (declares : r.Declares m t n u)
    (behind : x < r.fields.start) : EntityTable.SameUpTo x t u := by
  cases declares with
  | settled => exact .refl x t
  | outgrown => exact EntityTable.sameUpTo_resize behind
  | created => exact EntityTable.sameUpTo_putVar behind

theorem declareAll_sameUpTo (behind : ∀ r ∈ runs, x < r.fields.start) (m : Module) (t : EntityTable) :
    EntityTable.SameUpTo x t (declareAll runs m t).2.1 := by
  induction runs generalizing m t with
  | nil => exact .refl x t
  | cons r rs ih =>
    obtain ⟨here, rest⟩ := List.forall_mem_cons.mp behind
    exact ((r.declares m t).sameUpTo here).trans (ih rest _ _)

/-- Where a run starts there is an entity then, or a variable covers it. -/
theorem Declares.finds {n : Module} {u : EntityTable} (declares : r.Declares m t n u) : u.Finds r.fields.start := by
  cases declares with
  | settled settled =>
    cases settled with
    | code f here => exact .inl (Option.isSome_of_eq_some here)
    | fits id here => exact .inl (Option.isSome_of_eq_some here)
    | covered _ covered =>
      unfold isCovered at covered
      split at covered
      next found => exact .inr (Option.isSome_of_eq_some found)
      next => cases covered
  | outgrown id v here =>
    rw [EntityTable.Finds, EntityTable.get?_resize]
    exact .inl (Option.isSome_of_eq_some here)
  | created =>
    rw [EntityTable.Finds, EntityTable.get?_putVar, if_pos rfl]
    exact .inl rfl

theorem declareAll_finds (ordered : Ordered runs) (member : q ∈ runs) (m : Module) (t : EntityTable) :
    (declareAll runs m t).2.1.Finds q.fields.start := by
  induction runs generalizing m t with
  | nil => cases member
  | cons r rs ih =>
    obtain ⟨gap, apart⟩ := List.pairwise_cons.mp ordered.apart
    obtain ⟨whole, rest⟩ := List.forall_mem_cons.mp ordered.whole
    rcases List.mem_cons.mp member with rfl | later
    · have behind : ∀ r ∈ rs, q.fields.start < r.fields.start := fun r inside =>
        Nat.lt_of_le_of_lt whole.1 (gap r inside)
      exact (declareAll_sameUpTo behind _ _).finds (q.declares m t).finds
    · exact ih ⟨apart, rest⟩ later _ _

/-- A run starts at the first of sorted cells. -/
theorem ofCells_first {L : DataLayout} {c : Cell} {cells : List Cell}
    (ascending : (c :: cells).Pairwise fun a b => a.address ≤ b.address) (h : ofCells L (c :: cells) = .ok runs) :
    Ordered runs ∧ ∃ q ∈ runs, q.fields.start = c.address := by
  obtain ⟨next, rest⟩ := List.pairwise_cons.mp ascending
  rw [ofCells, List.foldlM_cons] at h
  obtain ⟨mid, first, others⟩ := Recovering.bind_eq_ok h
  have none_ : Ordered [] := ⟨.nil, by simp⟩
  obtain ⟨ordered, -, -, below⟩ := none_.addCell (by simp) first
  obtain ⟨stop, ends, first⟩ := Recovering.bind_eq_ok first
  cases first
  have behind : ∀ r ∈ [ofCell L c], ∀ d ∈ cells, r.fields.start ≤ d.address := fun r member d later =>
    Nat.le_trans (below r member) (next d later)
  obtain ⟨final, grown, -⟩ := ordered.addCells rest behind others
  obtain ⟨q, member, start, -⟩ := grown _ (List.mem_singleton_self _)
  exact ⟨final, q, member, start.trans (ofCell_spec ends).1⟩

end Run

namespace EntryCursor

variable {c d : EntryCursor} {m n : Module} {f : FuncId} {inst : Inst} {ty : Ty} {v : ValueId}

theorem insert_grows (h : c.insert m f inst ty = .ok (n, d, v)) :
    m.Retains n ∧ (m.graph f).insts.size < (n.graph f).insts.size := by
  have graph := (insert_graph h).1
  obtain ⟨func, place, found, -, rfl, -, -⟩ := insert_places h
  refine ⟨m.retains_updateFunc f fun other again => ?_, ?_⟩
  · cases found.symm.trans again
    exact func.retains_insert inst ty place
  · rw [graph, Graph.size_insts_emit]
    exact Nat.lt_succ_self _

end EntryCursor

namespace GlobalRedirection

variable {t : EntityTable} {s s' : GlobalRedirection} {c : Cell} {cells : List Cell} {ty : Ty} {f : FuncId}
  {v ptr : ValueId} {offset : Nat} {int : Option ValueId}

theorem entity?_retains {address : Nat} (h : s.entity? t f address = some (s', ptr, offset)) :
    s.module.Retains s'.module ∧ s'.bases = s.bases := by
  rcases entity?_cases h with ⟨id, -, rfl, -⟩ | ⟨id, -, rfl, -⟩
  · have func : s.module.KeepsForm True (s.module.addFuncValue f id).1 := s.module.keepsForm_addFuncValue f id
    exact ⟨func.retains, rfl⟩
  · have global : s.module.KeepsForm True (s.module.addGlobalValue f id).1 := s.module.keepsForm_addGlobalValue f id
    exact ⟨global.retains, rfl⟩

theorem displace_retains (h : s.displace f v offset ty = .ok (s', int)) : s.module.Retains s'.module := by
  rcases displace_cases h with ⟨-, rfl, -⟩ | ⟨i, func, module, cursor, sum, -, found, written, rfl, -⟩ | ⟨-, rfl, -⟩
  · exact .refl _
  · have numbered : s.module.KeepsForm True (s.module.updateFunc f fun _ => (func.addImm i).1) :=
      .updateFunc found (func.keepsForm_addImm i)
    exact numbered.retains.trans (EntryCursor.insert_grows written).1
  · exact .refl _

/-- An address that is found and was not made before is written. -/
theorem resolve_grows (finds : t.Finds c.address) (memo : s.memo = []) (bases : s.bases = [])
    (h : s.resolve t c ty = .ok (s', int)) :
    s.module.Retains s'.module ∧ (s.module.graph c.func).insts.size < (s'.module.graph c.func).insts.size := by
  rcases resolve_cases h with ⟨v, known, -, -⟩ | ⟨nowhere, -, -⟩ |
    ⟨s₁, ptr, offset, s₂, base, s₃, _, _, placed, cast, displaced, rfl, -⟩
  · rw [memo] at known
    cases known
  · have found := (entity?_isSome t s c.func c.address).mpr finds
    rw [nowhere] at found
    cases found
  · obtain ⟨first, none_⟩ := entity?_retains placed
    have third := displace_retains displaced
    rcases base_cases cast with ⟨known, -⟩ | ⟨module, cursor, written, rfl⟩
    · rw [none_, bases] at known
      cases known
    · obtain ⟨second, grows⟩ := EntryCursor.insert_grows written
      exact ⟨(first.trans second).trans third,
        Nat.lt_of_le_of_lt (first c.func) (Nat.lt_of_lt_of_le grows (third c.func))⟩

theorem redirect_grows (finds : t.Finds c.address) (memo : s.memo = []) (bases : s.bases = [])
    (h : s.redirect t c = .ok s') : (s.module.graph c.func).insts.size < (s'.module.graph c.func).insts.size := by
  obtain ⟨s₁, int, resolved, last⟩ := redirect_cases h
  obtain ⟨-, grows⟩ := resolve_grows finds memo bases resolved
  rcases last with ⟨-, rfl⟩ | ⟨new, -, rfl⟩
  · exact grows
  · have edited : s₁.module.KeepsForm True (s₁.module.updateGraph c.func (·.replaceOperand c.user c.value new)) :=
      s₁.module.keepsForm_replaceOperand c.func c.user c.value new
    exact Nat.lt_of_lt_of_le grows (edited.retains c.func)

end GlobalRedirection

namespace Module

variable {m n : Module} {t u : EntityTable} {cells : List Cell} {cursor last : EntryCursor} {built : BuiltGlobals}
  {ws stop : List Warning}

/-- Where there are cells, instructions are written. -/
theorem buildGlobals_grows (inner : cursor.IsInner m) (some_ : cells ≠ [])
    (run : (m.buildGlobals t cells cursor).run.run ws = (.ok (n, u, last, built), stop)) :
    ∃ f, (m.graph f).insts.size < (n.graph f).insts.size := by
  obtain ⟨runs, s, formed, rfl, redirected, rfl, -⟩ := buildGlobals_ok run
  have sorted := Cell.pairwise_sort (.ofTable m t cells) m.layout cells
  have count : (Cell.sort (.ofTable m t cells) m.layout cells).length = cells.length := List.length_mergeSort _
  generalize Cell.sort (.ofTable m t cells) m.layout cells = order at formed redirected sorted count
  cases order with
  | nil => exact absurd (List.length_eq_zero_iff.mp count.symm) some_
  | cons c rest =>
    obtain ⟨ordered, q, member, start⟩ := Run.ofCells_first sorted formed
    have declared := Run.declareAll_keepsForm runs m t
    -- The first cell in order starts the first run, and what starts a run is found once it is declared.
    have finds : (Run.declareAll runs m t).2.1.Finds c.address := start ▸ Run.declareAll_finds ordered member m t
    rw [GlobalRedirection.redirectAll, List.foldlM_cons] at redirected
    obtain ⟨s₁, first, others⟩ := Recovering.bind_eq_ok redirected
    have here : Module.WritesForm True (Run.declareAll runs m t).1 cursor s₁.module s₁.cursor :=
      GlobalRedirection.redirect_writesForm first
    have behind : s₁.module.WritesForm True s₁.cursor s.module s.cursor := GlobalRedirection.redirectAll_writesForm others
    obtain ⟨later, -⟩ := behind (here (inner.keep declared)).2
    refine ⟨c.func, Nat.lt_of_le_of_lt (declared.retains c.func) (Nat.lt_of_lt_of_le ?_ (later.retains c.func))⟩
    exact GlobalRedirection.redirect_grows (s := ⟨(Run.declareAll runs m t).1, cursor, [], [], []⟩) finds rfl rfl first

end Module

end VarRecovery
