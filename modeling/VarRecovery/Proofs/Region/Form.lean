import VarRecovery.Proofs.Code.Form
import VarRecovery.Proofs.Region.Resolution
import VarRecovery.Proofs.Region.Variables

/-!
Frames and global variables keep the form of code: their addresses are written at the start of functions, behind
instructions that end no block.
-/

set_option autoImplicit false

namespace VarRecovery

/-- The instructions that are remembered are there, and end no block. -/
def EntryCursor.IsInner (m : Module) (c : EntryCursor) : Prop :=
  ∀ f i, c.last.lookup f = some i →
    ∃ func inst, m.func? f = some func ∧ func.graph.inst? i = some inst ∧ inst.isTerminator = false

/-- Writing at a cursor in `m` led to `n` and another cursor. -/
def Module.WritesForm (fixed : Prop) (m : Module) (c : EntryCursor) (n : Module) (d : EntryCursor) : Prop :=
  c.IsInner m → m.KeepsForm fixed n ∧ d.IsInner n

namespace EntryCursor

variable {fixed : Prop} {m n : Module} {c d : EntryCursor} {f : FuncId} {inst : Inst} {ty : Ty} {v : ValueId}

theorem isInner_start (m : Module) : start.IsInner m :=
  nofun

theorem IsInner.keep (inner : c.IsInner m) (keeps : m.KeepsForm fixed n) : c.IsInner n := by
  intro f i last
  obtain ⟨func, inst, found, known, inside⟩ := inner f i last
  obtain ⟨g, after, kept⟩ := keeps.func f func found
  obtain ⟨other, there, same⟩ := kept.graph.form i inst known
  exact ⟨g, other, after, there, (Inst.isTerminator_of_form same).trans inside⟩

theorem insert_writesForm (h : c.insert m f inst ty = .ok (n, d, v)) (noCall : inst.isCall = false)
    (plain : inst.isPhi = false) (noEnd : inst.isTerminator = false) : m.WritesForm fixed c n d := by
  intro inner
  obtain ⟨func, place, found, here, rfl, rfl, -⟩ := insert_places h
  have inside : func.IsInner place := by
    rcases place?_cases here with ⟨i, last, rfl⟩ | ⟨entry, -, rfl⟩
    · obtain ⟨other, anchor, again, known, noEnd⟩ := inner f i last
      cases found.symm.trans again
      exact ⟨anchor, known, noEnd⟩
    · trivial
  have keeps : m.KeepsForm fixed (m.updateFunc f fun _ => (func.insert inst ty place).1) :=
    .updateFunc found (Func.keepsForm_insert inside noCall plain ty)
  have written : (func.insert inst ty place).1.graph.inst? func.graph.nextInst = some inst := by
    rw [Func.graph_insert, Graph.inst?_emit, if_pos rfl]
  refine ⟨keeps, fun j i last => ?_⟩
  rw [lookup_written] at last
  split at last
  next same =>
    cases same
    cases last
    exact ⟨_, inst, Module.func?_updateFunc_self found _, written, noEnd⟩
  next => exact inner.keep keeps j i last

end EntryCursor

namespace Module

variable {fixed : Prop} {m n k : Module} {c d e : EntryCursor} {f : FuncId}

theorem WritesForm.trans (first : m.WritesForm fixed c n d) (second : n.WritesForm fixed d k e) :
    m.WritesForm fixed c k e := by
  intro inner
  obtain ⟨keeps, between⟩ := first inner
  obtain ⟨rest, last⟩ := second between
  exact ⟨keeps.trans rest, last⟩

theorem KeepsForm.writesForm (keeps : m.KeepsForm fixed n) (c : EntryCursor) : m.WritesForm fixed c n c :=
  fun inner => ⟨keeps, inner.keep keeps⟩

theorem WritesForm.refl (m : Module) (c : EntryCursor) : m.WritesForm fixed c m c :=
  (KeepsForm.refl m).writesForm c

theorem keepsForm_addOffset (m : Module) (f : FuncId) (offset : Int) : m.KeepsForm fixed (m.addOffset f offset).1 := by
  unfold addOffset
  split
  next => exact .refl m
  next func found => exact .updateFunc found (func.keepsForm_addImm _)

theorem keepsForm_addGlobalValue (m : Module) (f : FuncId) (id : GlobalId) :
    m.KeepsForm fixed (m.addGlobalValue f id).1 := by
  unfold addGlobalValue
  split
  next func v found _ =>
    have insts : (func.graph.addGlobal id (.ptr v.ty)).1.insts = func.graph.insts := Graph.insts_findOrAdd ..
    exact .updateFunc found (.of_graph (func.graph.evolves_addGlobal id _) (congrArg Array.size insts))
  next => exact .refl m

theorem keepsForm_addFuncValue (m : Module) (f id : FuncId) : m.KeepsForm fixed (m.addFuncValue f id).1 := by
  unfold addFuncValue
  split
  next func target found _ =>
    have insts : (func.graph.addFunc id target.signature.ptrTy).1.insts = func.graph.insts := Graph.insts_findOrAdd ..
    exact .updateFunc found (.of_graph (func.graph.evolves_addFunc id _) (congrArg Array.size insts))
  next => exact .refl m

theorem keepsForm_types (m : Module) (types : TyStore) : m.KeepsForm fixed { m with types } :=
  .of_func (fun _ => rfl) rfl fun _ _ found => found

theorem keepsForm_setGlobalTy (m : Module) (id : GlobalId) (ty : Ty) : m.KeepsForm False (m.setGlobalTy id ty) where
  target := rfl
  func j f found :=
    ⟨_, by rw [func?_setGlobalTy, found]; rfl, .of_graph (f.graph.evolves_setGlobalTy id (.ptr ty)) rfl⟩
  known j there := by rwa [func?_setGlobalTy, Option.isSome_map] at there
  global j v found := by
    refine ⟨_, by rw [global?_setGlobalTy, found]; rfl, ?_, False.elim⟩
    split <;> rfl

theorem keepsForm_replaceOperand (m : Module) (f : FuncId) (i : InstId) (old new : ValueId) :
    m.KeepsForm fixed (m.updateGraph f (·.replaceOperand i old new)) :=
  .change (fun func => func.keepsForm_replaceOperand i old new) m f

end Module

namespace FrameRedirection

variable {fixed : Prop} {f : FuncId} {base : Nat} {bytes int : ValueId} {s s' : FrameRedirection} {c : Cell} {ty : Ty}

theorem address_writesForm (h : s.address f base bytes c ty = .ok (s', int)) :
    s.module.WritesForm fixed s.cursor s'.module s'.cursor := by
  rcases address_cases h with ⟨-, rfl⟩ | ⟨m₁, offset, m₂, cursor₂, ptr, m₃, cursor₃, added, gep, cast, rfl⟩
  · exact .refl _ _
  · have numbered : s.module.KeepsForm fixed _ := s.module.keepsForm_addOffset f ((c.address - base : Nat) : Int)
    rw [added] at numbered
    exact ((numbered.writesForm s.cursor).trans (EntryCursor.insert_writesForm gep rfl rfl rfl)).trans
      (EntryCursor.insert_writesForm cast rfl rfl rfl)

theorem redirect_writesForm (h : s.redirect f base bytes c = .ok s') :
    s.module.WritesForm fixed s.cursor s'.module s'.cursor := by
  obtain ⟨⟨s₁, int⟩, addressed, h⟩ := Recovering.bind_eq_ok h
  cases h
  exact (address_writesForm addressed).trans ((s₁.module.keepsForm_replaceOperand f c.user c.value int).writesForm _)

end FrameRedirection

namespace Module

variable {fixed : Prop} {m n : Module} {cursor last : EntryCursor}

theorem buildFrame_writesForm {f : FuncId} {cells : List Cell} {stackPointer : Option Nat} {redzone : Nat} {frame : Frame}
    {ws stop : List Warning}
    (run : (m.buildFrame f cells stackPointer redzone cursor).run.run ws = (.ok (n, last, frame), stop)) :
    m.WritesForm fixed cursor n last := by
  obtain ⟨base, types, ty, m₁, cursor₁, slot, m₂, cursor₂, bytes, s, allocated, cast, redirected, rfl, rfl⟩ :=
    buildFrame_ok run
  have start : m.WritesForm fixed cursor m₂ cursor₂ :=
    (((m.keepsForm_types types).writesForm cursor).trans (EntryCursor.insert_writesForm allocated rfl rfl rfl)).trans
      (EntryCursor.insert_writesForm cast rfl rfl rfl)
  exact Recovering.foldlM_eq_ok (motive := fun s => m.WritesForm fixed cursor s.module s.cursor) start
    (fun c _ _ _ before step => before.trans (FrameRedirection.redirect_writesForm step)) redirected

end Module

namespace Run

theorem Declares.keepsForm {r : Run} {m n : Module} {t u : EntityTable} (declares : r.Declares m t n u) :
    m.KeepsForm False n := by
  cases declares with
  | settled => exact .refl m
  | outgrown id => exact (m.keepsForm_types _).trans (Module.keepsForm_setGlobalTy _ id _)
  | created => exact .of_func (fun _ => rfl) rfl fun _ _ => global?_create

theorem declareAll_keepsForm (runs : List Run) (m : Module) (t : EntityTable) :
    m.KeepsForm False (declareAll runs m t).1 := by
  induction runs generalizing m t with
  | nil => exact .refl m
  | cons r rs ih => exact (r.declares m t).keepsForm.trans (ih _ _)

end Run

namespace GlobalRedirection

variable {fixed : Prop} {t : EntityTable} {s s' : GlobalRedirection} {f : FuncId} {v ptr : ValueId} {ty : Ty} {c : Cell}
  {offset : Nat} {int : Option ValueId}

theorem entity?_writesForm {address : Nat} (h : s.entity? t f address = some (s', ptr, offset)) :
    s.module.WritesForm fixed s.cursor s'.module s'.cursor := by
  rcases entity?_cases h with ⟨id, -, rfl, -⟩ | ⟨id, -, rfl, -⟩
  · exact (s.module.keepsForm_addFuncValue f id).writesForm _
  · exact (s.module.keepsForm_addGlobalValue f id).writesForm _

theorem base_writesForm (h : s.base f ptr ty = .ok (s', v)) : s.module.WritesForm fixed s.cursor s'.module s'.cursor := by
  rcases base_cases h with ⟨-, rfl⟩ | ⟨module, cursor, written, rfl⟩
  · exact .refl _ _
  · exact EntryCursor.insert_writesForm written rfl rfl rfl

theorem displace_writesForm (h : s.displace f v offset ty = .ok (s', int)) :
    s.module.WritesForm fixed s.cursor s'.module s'.cursor := by
  rcases displace_cases h with ⟨-, rfl, -⟩ | ⟨i, func, module, cursor, sum, -, found, written, rfl, -⟩ | ⟨-, rfl, -⟩
  · exact .refl _ _
  · have numbered : s.module.KeepsForm fixed _ := .updateFunc found (func.keepsForm_addImm i)
    exact (numbered.writesForm s.cursor).trans (EntryCursor.insert_writesForm written rfl rfl rfl)
  · exact .refl _ _

theorem resolve_writesForm (h : s.resolve t c ty = .ok (s', int)) :
    s.module.WritesForm fixed s.cursor s'.module s'.cursor := by
  rcases resolve_cases h with ⟨w, -, rfl, -⟩ | ⟨-, rfl, -⟩ |
    ⟨s₁, ptr, offset, s₂, base, s₃, memo, pointers, placed, cast, displaced, rfl, -⟩
  · exact .refl _ _
  · exact .refl _ _
  · have moved : s₂.module.WritesForm fixed s₂.cursor s₃.module s₃.cursor := displace_writesForm displaced
    exact ((entity?_writesForm placed).trans (base_writesForm cast)).trans moved

theorem redirect_writesForm (h : s.redirect t c = .ok s') : s.module.WritesForm fixed s.cursor s'.module s'.cursor := by
  obtain ⟨s₁, int, resolved, last⟩ := redirect_cases h
  have first : s.module.WritesForm fixed s.cursor s₁.module s₁.cursor := resolve_writesForm resolved
  rcases last with ⟨-, rfl⟩ | ⟨new, -, rfl⟩
  · exact first
  · exact first.trans ((s₁.module.keepsForm_replaceOperand c.func c.user c.value new).writesForm _)

theorem redirectAll_writesForm {cells : List Cell} (h : redirectAll t cells s = .ok s') :
    s.module.WritesForm fixed s.cursor s'.module s'.cursor :=
  Recovering.foldlM_eq_ok (motive := fun s' => s.module.WritesForm fixed s.cursor s'.module s'.cursor) (.refl _ _)
    (fun _ _ _ _ before step => before.trans (redirect_writesForm step)) h

end GlobalRedirection

namespace Module

variable {m n : Module} {t u : EntityTable} {cells : List Cell} {cursor last : EntryCursor} {built : BuiltGlobals}

theorem buildGlobals_writesForm {ws stop : List Warning}
    (run : (m.buildGlobals t cells cursor).run.run ws = (.ok (n, u, last, built), stop)) :
    m.WritesForm False cursor n last := by
  obtain ⟨runs, s, -, rfl, redirected, rfl, rfl⟩ := buildGlobals_ok run
  exact ((Run.declareAll_keepsForm runs m t).writesForm cursor).trans
    (GlobalRedirection.redirectAll_writesForm redirected)

end Module

end VarRecovery
