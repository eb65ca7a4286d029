import VarRecovery.Proofs.Access.Collect
import VarRecovery.Proofs.Region.Resolution
import VarRecovery.Proofs.Region.Variables

/-!
Frames and global variables keep what is tracked to what is listed: their addresses are written at the start of
functions, and only operands of listed instructions become others.
-/

set_option autoImplicit false

namespace VarRecovery

namespace EntryCursor

/-- The instructions that are remembered are listed. -/
def Listed (m : Module) (c : EntryCursor) : Prop :=
  ∀ f i, c.last.lookup f = some i → m.Lists f i

variable {c d : EntryCursor} {m n : Module} {f : FuncId} {inst : Inst} {ty : Ty} {v : ValueId}

theorem Listed.start (m : Module) : start.Listed m :=
  nofun

theorem Listed.revise (listed : c.Listed m) (revision : m.Revision n) : c.Listed n :=
  fun f i last => revision.lists (listed f i last)

theorem Listed.offers (listed : c.Listed m) {func : Func} (found : m.func? f = some func) {place : Place}
    (here : c.place? f func = some place) : func.listing.Offers place := by
  rcases place?_cases here with ⟨i, last, rfl⟩ | ⟨entry, first, rfl⟩
  · obtain ⟨other, known, inside⟩ := listed f i last
    cases found.symm.trans known
    exact inside
  · exact List.mem_of_mem_head? first

theorem insert_revision (tracked : m.Tracked) (listed : c.Listed m) (h : c.insert m f inst ty = .ok (n, d, v))
    (known : ∀ v ∈ inst.operands, m.Holds f v) : m.Revision n ∧ d.Listed n ∧ n.Holds f v := by
  obtain ⟨func, place, found, here, rfl, rfl, rfl⟩ := insert_places h
  -- What the module holds in this function is in the body that is found.
  have inside : ∀ v ∈ inst.operands, func.graph.Has v := by
    intro v operand
    obtain ⟨other, again, there⟩ := known v operand
    cases found.symm.trans again
    exact there
  have offered := listed.offers found here
  obtain ⟨written, there⟩ := (tracked f func found).insert inst ty place inside offered
  have revision := Module.Revision.updateFunc tracked found written
  have after := Module.func?_updateFunc_self found fun _ => (func.insert inst ty place).1
  refine ⟨revision, fun j i last => ?_, _, after, func.value_insert inst ty place ▸ there⟩
  rw [lookup_written] at last
  split at last
  next same =>
    cases same
    cases last
    exact ⟨_, after, ((tracked f func found).insertInst inst place inside offered).2⟩
  next => exact revision.lists (listed j i last)

end EntryCursor

namespace Module

variable {m n : Module} {f : FuncId} {c : Cell}

theorem addOffset_revision (tracked : m.Tracked) {func : Func} (found : m.func? f = some func) (offset : Int) :
    m.Revision (m.addOffset f offset).1 ∧ (m.addOffset f offset).1.Holds f (m.addOffset f offset).2 := by
  obtain ⟨revision, there⟩ := (tracked f func found).addImm (.ofInt m.layout.pointerWidth offset)
  simp only [addOffset, found]
  exact ⟨.updateFunc tracked found revision, _, func?_updateFunc_self found _, there⟩

theorem updateGraph_replaceOperand_revision (tracked : m.Tracked) {user : InstId} {new : ValueId}
    (listed : m.Lists f user) (known : m.Holds f new) (old : ValueId) :
    m.Revision (m.updateGraph f (·.replaceOperand user old new)) := by
  obtain ⟨func, found, inside⟩ := listed
  obtain ⟨other, again, there⟩ := known
  cases found.symm.trans again
  rw [updateGraph, updateFunc_congr (fun _ => func.updateGraph (·.replaceOperand user old new)) (by simp [found])]
  exact .updateFunc tracked found ((tracked f func found).replaceOperand inside old there)

end Module

namespace FrameRedirection

/-- What holds of a redirection that began with `m`. -/
structure Kept (m : Module) (f : FuncId) (bytes : ValueId) (s : FrameRedirection) : Prop where
  revision : m.Revision s.module
  cursor : s.cursor.Listed s.module
  bytes : s.module.Holds f bytes
  memo : ∀ address ty v, ((address, ty), v) ∈ s.memo → s.module.Holds f v

variable {m : Module} {f : FuncId} {base : Nat} {bytes int : ValueId} {s s' : FrameRedirection} {c : Cell} {ty : Ty}

theorem Kept.keep (kept : s.Kept m f bytes) (revision : s.module.Revision s'.module)
    (cursor : s'.cursor.Listed s'.module)
    (memo : ∀ address ty v, ((address, ty), v) ∈ s'.memo → ((address, ty), v) ∈ s.memo ∨ s'.module.Holds f v) :
    s'.Kept m f bytes where
  revision := kept.revision.trans revision
  cursor := cursor
  bytes := revision.holds kept.bytes
  memo address ty v member :=
    (memo address ty v member).elim (fun old => revision.holds (kept.memo address ty v old)) fun new => new

theorem address_kept (kept : s.Kept m f bytes) (h : s.address f base bytes c ty = .ok (s', int)) :
    s'.Kept m f bytes ∧ s'.module.Holds f int := by
  rcases address_cases h with ⟨known, rfl⟩ | ⟨m₁, offset, m₂, cursor₂, ptr, m₃, cursor₃, added, gep, cast, rfl⟩
  · exact ⟨kept, kept.memo _ _ _ known⟩
  · obtain ⟨func, found, -⟩ := kept.bytes
    obtain ⟨numbered, there⟩ := Module.addOffset_revision kept.revision.tracked found ((c.address - base : Nat) : Int)
    rw [added] at numbered there
    obtain ⟨pointed, listed₂, pointer⟩ := EntryCursor.insert_revision numbered.tracked (kept.cursor.revise numbered) gep
      (List.forall_mem_cons.mpr ⟨numbered.holds kept.bytes, List.forall_mem_singleton.mpr there⟩)
    obtain ⟨last, listed₃, number⟩ :=
      EntryCursor.insert_revision pointed.tracked listed₂ cast (List.forall_mem_singleton.mpr pointer)
    refine ⟨kept.keep ((numbered.trans pointed).trans last) listed₃ fun address ty v member => ?_, number⟩
    rcases List.mem_cons.mp member with same | before
    · cases same
      exact .inr number
    · exact .inl before

theorem redirect_kept (kept : s.Kept m f bytes) (listed : c.Listed m f) (h : s.redirect f base bytes c = .ok s') :
    s'.Kept m f bytes := by
  obtain ⟨⟨s₁, int⟩, addressed, h⟩ := Recovering.bind_eq_ok h
  obtain ⟨kept₁, there⟩ := address_kept kept addressed
  cases h
  have last := Module.updateGraph_replaceOperand_revision kept₁.revision.tracked (kept₁.revision.lists listed.1) there
    c.value
  exact kept₁.keep last (kept₁.cursor.revise last) fun _ _ _ old => .inl old

end FrameRedirection

namespace Module

variable {m n : Module} {f : FuncId} {cells : List Cell} {cursor last : EntryCursor}

theorem buildFrame_revision {stackPointer : Option Nat} {redzone : Nat} {frame : Frame} (tracked : m.Tracked)
    (cursors : cursor.Listed m) (listed : ∀ c ∈ cells, c.Listed m f) {ws stop : List Warning}
    (run : (m.buildFrame f cells stackPointer redzone cursor).run.run ws = (.ok (n, last, frame), stop)) :
    m.Revision n ∧ last.Listed n := by
  obtain ⟨base, types, ty, m₁, cursor₁, slot, m₂, cursor₂, bytes, s, allocated, cast, redirected, rfl, rfl⟩ :=
    buildFrame_ok run
  have typed : m.Revision { m with types } := .of_funcs_eq tracked rfl
  obtain ⟨first, listed₁, pointer⟩ :=
    EntryCursor.insert_revision typed.tracked (cursors.revise typed) allocated fun _ operand => nomatch operand
  obtain ⟨second, listed₂, there⟩ :=
    EntryCursor.insert_revision first.tracked listed₁ cast (List.forall_mem_singleton.mpr pointer)
  have start : FrameRedirection.Kept m f bytes ⟨m₂, cursor₂, [], [slot]⟩ :=
    ⟨(typed.trans first).trans second, listed₂, there, nofun⟩
  have kept : s.Kept m f bytes :=
    Recovering.foldlM_eq_ok (motive := fun s => s.Kept m f bytes) start
      (fun c _ _ member before => FrameRedirection.redirect_kept before (listed c (List.mem_mergeSort.mp member)))
      redirected
  exact ⟨kept.revision, kept.cursor⟩

end Module

namespace Run

variable {m n : Module} {t u : EntityTable}

theorem Declares.revision {r : Run} (declares : r.Declares m t n u) (tracked : m.Tracked) : m.Revision n := by
  cases declares with
  | settled => exact .refl tracked
  | outgrown id => exact .map tracked (Module.func?_setGlobalTy _ id _) fun f tracked => tracked.setGlobalTy id _
  | created => exact .of_funcs_eq tracked rfl

theorem declareAll_revision (tracked : m.Tracked) (runs : List Run) (t : EntityTable) :
    m.Revision (declareAll runs m t).1 := by
  induction runs generalizing m t with
  | nil => exact .refl tracked
  | cons r rs ih =>
    have first := (r.declares m t).revision tracked
    exact first.trans (ih first.tracked _)

end Run

namespace Module

variable {m : Module} {f : FuncId} {v : ValueId}

/-- What a missing entity becomes is the first value, so it is there if any value is. -/
theorem Holds.first (there : m.Holds f v) : m.Holds f ⟨0⟩ := by
  obtain ⟨func, found, inside⟩ := there
  exact ⟨func, found, Nat.zero_lt_of_lt inside⟩

theorem addGlobalValue_revision (tracked : m.Tracked) (there : m.Holds f v) (id : GlobalId) :
    m.Revision (m.addGlobalValue f id).1 ∧ (m.addGlobalValue f id).1.Holds f (m.addGlobalValue f id).2 := by
  have ⟨func, found, _⟩ := there
  cases known : m.global? id with
  | none =>
    simp only [addGlobalValue, found, known]
    exact ⟨.refl tracked, there.first⟩
  | some var =>
    simp only [addGlobalValue, found, known]
    obtain ⟨revision, inside⟩ := (tracked f func found).addGlobal id (.ptr var.ty)
    exact ⟨.updateFunc tracked found revision, _, func?_updateFunc_self found _, inside⟩

theorem addFuncValue_revision (tracked : m.Tracked) (there : m.Holds f v) (id : FuncId) :
    m.Revision (m.addFuncValue f id).1 ∧ (m.addFuncValue f id).1.Holds f (m.addFuncValue f id).2 := by
  have ⟨func, found, _⟩ := there
  cases known : m.func? id with
  | none =>
    simp only [addFuncValue, found, known]
    exact ⟨.refl tracked, there.first⟩
  | some target =>
    simp only [addFuncValue, found, known]
    obtain ⟨revision, inside⟩ := (tracked f func found).addFunc id target.signature.ptrTy
    exact ⟨.updateFunc tracked found revision, _, func?_updateFunc_self found _, inside⟩

end Module

namespace GlobalRedirection

/-- What holds of a redirection that began with `m`. -/
structure Kept (m : Module) (s : GlobalRedirection) : Prop where
  revision : m.Revision s.module
  cursor : s.cursor.Listed s.module
  memo : ∀ f address ty v, ((f, address, ty), v) ∈ s.memo → s.module.Holds f v
  bases : ∀ f ptr ty v, ((f, ptr, ty), v) ∈ s.bases → s.module.Holds f v

variable {m : Module} {t : EntityTable} {s s' : GlobalRedirection} {f : FuncId} {v ptr : ValueId} {ty : Ty} {c : Cell}
  {offset : Nat} {int : Option ValueId}

/-- Code grows, and what is remembered anew is there. -/
theorem Kept.keep (kept : s.Kept m) (revision : s.module.Revision s'.module) (cursor : s'.cursor.Listed s'.module)
    (memo : ∀ key v, (key, v) ∈ s'.memo → (key, v) ∈ s.memo ∨ s'.module.Holds key.1 v)
    (bases : ∀ key v, (key, v) ∈ s'.bases → (key, v) ∈ s.bases ∨ s'.module.Holds key.1 v) : s'.Kept m where
  revision := kept.revision.trans revision
  cursor := cursor
  memo f address ty v member :=
    (memo _ v member).elim (fun old => revision.holds (kept.memo f address ty v old)) fun new => new
  bases f ptr ty v member :=
    (bases _ v member).elim (fun old => revision.holds (kept.bases f ptr ty v old)) fun new => new

theorem entity?_kept (kept : s.Kept m) (there : s.module.Holds f v) {address : Nat}
    (h : s.entity? t f address = some (s', ptr, offset)) : s'.Kept m ∧ s'.module.Holds f ptr := by
  rcases entity?_cases h with ⟨id, -, rfl, rfl⟩ | ⟨id, -, rfl, rfl⟩
  · obtain ⟨revision, pointer⟩ := Module.addFuncValue_revision kept.revision.tracked there id
    exact ⟨kept.keep revision (kept.cursor.revise revision) (fun _ _ => .inl) fun _ _ => .inl, pointer⟩
  · obtain ⟨revision, pointer⟩ := Module.addGlobalValue_revision kept.revision.tracked there id
    exact ⟨kept.keep revision (kept.cursor.revise revision) (fun _ _ => .inl) fun _ _ => .inl, pointer⟩

theorem base_kept (kept : s.Kept m) (there : s.module.Holds f ptr) (h : s.base f ptr ty = .ok (s', v)) :
    s'.Kept m ∧ s'.module.Holds f v := by
  rcases base_cases h with ⟨known, rfl⟩ | ⟨module, cursor, written, rfl⟩
  · exact ⟨kept, kept.bases f ptr ty v known⟩
  · obtain ⟨revision, listed, number⟩ := EntryCursor.insert_revision kept.revision.tracked kept.cursor written
      (List.forall_mem_singleton.mpr there)
    refine ⟨kept.keep revision listed (fun _ _ => .inl) fun key w member => ?_, number⟩
    rcases List.mem_cons.mp member with same | before
    · cases same
      exact .inr number
    · exact .inl before

theorem displace_kept (kept : s.Kept m) (there : s.module.Holds f v) (h : s.displace f v offset ty = .ok (s', int)) :
    s'.Kept m ∧ ∀ w, int = some w → s'.module.Holds f w := by
  rcases displace_cases h with ⟨-, rfl, rfl⟩ | ⟨i, func, module, cursor, sum, -, found, written, rfl, rfl⟩ | ⟨-, rfl, rfl⟩
  · refine ⟨kept, ?_⟩
    rintro _ ⟨⟩
    exact there
  · obtain ⟨added, constant⟩ := (kept.revision.tracked f func found).addImm i
    have numbered := Module.Revision.updateFunc kept.revision.tracked found added
    obtain ⟨revision, listed, number⟩ := EntryCursor.insert_revision numbered.tracked (kept.cursor.revise numbered)
      written (List.forall_mem_cons.mpr ⟨numbered.holds there,
        List.forall_mem_singleton.mpr ⟨_, Module.func?_updateFunc_self found _, constant⟩⟩)
    refine ⟨kept.keep (numbered.trans revision) listed (fun _ _ => .inl) fun _ _ => .inl, ?_⟩
    rintro _ ⟨⟩
    exact number
  · exact ⟨kept, nofun⟩

theorem resolve_kept (kept : s.Kept m) (there : s.module.Holds c.func v) (h : s.resolve t c ty = .ok (s', int)) :
    s'.Kept m ∧ ∀ w, int = some w → s'.module.Holds c.func w := by
  rcases resolve_cases h with ⟨w, known, rfl, rfl⟩ | ⟨-, rfl, rfl⟩ |
    ⟨s₁, ptr, offset, s₂, base, s₃, memo, pointers, placed, cast, displaced, rfl, remembered⟩
  · refine ⟨kept, ?_⟩
    rintro _ ⟨⟩
    exact kept.memo _ _ _ _ known
  · exact ⟨kept, nofun⟩
  · obtain ⟨kept₁, pointer⟩ := entity?_kept kept there placed
    obtain ⟨kept₂, number⟩ := base_kept kept₁ pointer cast
    obtain ⟨kept₃, values⟩ := displace_kept kept₂ number displaced
    refine ⟨kept₃.keep (.refl kept₃.revision.tracked) kept₃.cursor (fun key w member => ?_) fun _ _ => .inl, values⟩
    exact (remembered key w member).imp_right fun ⟨same, made⟩ => same ▸ values w made

theorem redirect_kept (kept : s.Kept m) (listed : c.Listed m c.func) (h : s.redirect t c = .ok s') : s'.Kept m := by
  obtain ⟨s₁, int, resolved, last⟩ := redirect_cases h
  obtain ⟨kept₁, values⟩ := resolve_kept kept (kept.revision.holds listed.2) resolved
  rcases last with ⟨-, rfl⟩ | ⟨new, made, rfl⟩
  · exact kept₁
  · have last := Module.updateGraph_replaceOperand_revision kept₁.revision.tracked (kept₁.revision.lists listed.1)
      (values new made) c.value
    exact kept₁.keep last (kept₁.cursor.revise last) (fun _ _ => .inl) fun _ _ => .inl

end GlobalRedirection

namespace Module

variable {m n : Module} {t u : EntityTable} {cells : List Cell} {cursor last : EntryCursor} {built : BuiltGlobals}

theorem buildGlobals_revision (tracked : m.Tracked) (cursors : cursor.Listed m)
    (listed : ∀ c ∈ cells, c.Listed m c.func) {ws stop : List Warning}
    (run : (m.buildGlobals t cells cursor).run.run ws = (.ok (n, u, last, built), stop)) :
    m.Revision n ∧ last.Listed n := by
  obtain ⟨runs, s, -, rfl, redirected, rfl, rfl⟩ := buildGlobals_ok run
  have declared := Run.declareAll_revision tracked runs t
  have start : GlobalRedirection.Kept m ⟨(Run.declareAll runs m t).1, cursor, [], [], []⟩ :=
    ⟨declared, cursors.revise declared, nofun, nofun⟩
  have kept : s.Kept m :=
    Recovering.foldlM_eq_ok (motive := fun s => s.Kept m) start
      (fun c _ _ member before => GlobalRedirection.redirect_kept before (listed c (List.mem_mergeSort.mp member)))
      redirected
  exact ⟨kept.revision, kept.cursor⟩

end Module

end VarRecovery
