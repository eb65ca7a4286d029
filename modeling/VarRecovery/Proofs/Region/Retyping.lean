import VarRecovery.Proofs.Region.FieldList
import VarRecovery.Proofs.Region.Form

/-!
What declaring variables for runs leaves of a table: its entities stay where they are, and a variable that gets
another type lies in the table and has a size.
-/

set_option autoImplicit false

namespace VarRecovery

namespace DataLayout

variable {L : DataLayout}

/-- A struct has a size if all its fields do. -/
theorem allocSize?_struct {fields : List Ty} (sized : ∀ ty ∈ fields, (L.allocSize? ty).isSome) (name : String)
    (packed : Bool) : (L.allocSize? (.struct name fields packed)).isSome := by
  have placed (start : Nat) : (L.placeFields packed start fields).isSome ∧ (L.maxAlign fields).isSome := by
    induction fields generalizing start with
    | nil => exact ⟨rfl, rfl⟩
    | cons ty tys ih =>
      obtain ⟨here, rest⟩ := List.forall_mem_cons.mp sized
      obtain ⟨alloc, known⟩ := Option.isSome_iff_exists.mp here
      obtain ⟨size, align, hasSize, hasAlign, -⟩ := allocSize?_some known
      obtain ⟨most, strictest⟩ := Option.isSome_iff_exists.mp (ih rest 0).2
      obtain ⟨⟨offsets, stop⟩, behind⟩ := Option.isSome_iff_exists.mp
        (ih rest (Word.wrap ((if packed then start else Word.roundUp start align) + Word.roundUp size align))).1
      simp [placeFields, maxAlign, hasSize, hasAlign, strictest, behind]
  obtain ⟨⟨offsets, stop⟩, behind⟩ := Option.isSome_iff_exists.mp (placed 0).1
  obtain ⟨align, strictest⟩ := Option.isSome_iff_exists.mp (placed 0).2
  cases packed <;> simp [allocSize?, size?, align?, behind, strictest]

end DataLayout

namespace FieldList

/-- All fields have a size. -/
def Sized (L : DataLayout) (l : FieldList) : Prop :=
  ∀ field ∈ l.fields, (L.allocSize? field.2).isSome

variable {a : Architecture} {l : FieldList} {ty : Ty} {size : Nat}

theorem IsPadding.sized (padding : IsPadding ty) : ((DataLayout.ofArchitecture a).allocSize? ty).isSome := by
  obtain ⟨-, -, alloc, known, -⟩ := padding.fills (a := a)
  rw [known]
  rfl

theorem Sized.push (sized : l.Sized (.ofArchitecture a)) (takes : Takes (.ofArchitecture a) ty size) :
    (l.push (.ofArchitecture a) ty size).Sized (.ofArchitecture a) := by
  intro field member
  rcases mem_push member with before | rfl | padding
  · exact sized field before
  · rw [takes.placed.2]
    rfl
  · exact padding.sized

theorem Sized.fillBytesTo (sized : l.Sized (.ofArchitecture a)) (address : Nat) :
    (l.fillBytesTo address).Sized (.ofArchitecture a) := by
  intro field member
  rcases List.mem_append.mp member with before | byte
  · exact sized field before
  · obtain ⟨n, -, rfl⟩ := List.mem_map.mp byte
    cases a <;> rfl

end FieldList

namespace Run

variable {a : Architecture} {cells : List Cell} {runs : List Run}

theorem addCell_sized {c : Cell} {after : List Run} (sized : ∀ r ∈ runs, r.fields.Sized (.ofArchitecture a))
    (takes : FieldList.Takes (.ofArchitecture a) c.ty c.size) (h : addCell (.ofArchitecture a) runs c = .ok after) :
    ∀ r ∈ after, r.fields.Sized (.ofArchitecture a) := by
  obtain ⟨stop, -, h⟩ := Recovering.bind_eq_ok h
  have alone : (ofCell (.ofArchitecture a) c).fields.Sized (.ofArchitecture a) :=
    FieldList.Sized.push (l := .startAt c.address) nofun takes
  split at h
  next =>
    cases h
    exact List.forall_mem_singleton.mpr alone
  next r last =>
    cases h
    have here := sized r (List.mem_of_getLast? last)
    refine List.forall_mem_append.mpr ⟨fun q member => sized q (List.dropLast_subset _ member), ?_⟩
    unfold extend
    split
    next =>
      split
      next => exact List.forall_mem_singleton.mpr (here.fillBytesTo stop)
      next => exact List.forall_mem_singleton.mpr here
    next =>
      split
      next => exact List.forall_mem_singleton.mpr (here.push takes)
      next => exact List.forall_mem_cons.mpr ⟨here, List.forall_mem_singleton.mpr alone⟩

theorem ofCells_sized (takes : ∀ c ∈ cells, FieldList.Takes (.ofArchitecture a) c.ty c.size)
    (h : ofCells (.ofArchitecture a) cells = .ok runs) : ∀ r ∈ runs, r.fields.Sized (.ofArchitecture a) :=
  Recovering.foldlM_eq_ok (motive := fun runs => ∀ r ∈ runs, r.fields.Sized (.ofArchitecture a)) (List.forall_mem_nil _)
    (fun c _ _ member sized added => addCell_sized sized (takes c member) added) h

end Run

/-- Entities stay where they are, and variables have the type they had, or lie in the table and have a size. -/
structure EntityTable.Retypes (m : Module) (t : EntityTable) (n : Module) (u : EntityTable) : Prop where
  layout : n.layout = m.layout
  get : ∀ a e, t.get? a = some e → u.get? a = some e
  global : ∀ id v, m.global? id = some v → ∃ w, n.global? id = some w ∧
    (w = v ∨ (n.layout.allocSize? w.ty).isSome ∧ ∃ a, u.get? a = some (.var id))

namespace EntityTable

variable {m n k : Module} {t u s : EntityTable}

theorem Retypes.refl (m : Module) (t : EntityTable) : t.Retypes m m t :=
  ⟨rfl, fun _ _ found => found, fun _ v known => ⟨v, known, .inl rfl⟩⟩

theorem Retypes.trans (first : t.Retypes m n u) (second : u.Retypes n k s) : t.Retypes m k s where
  layout := second.layout.trans first.layout
  get a e found := second.get a e (first.get a e found)
  global id v known := by
    obtain ⟨w, between, one⟩ := first.global id v known
    obtain ⟨x, after, two⟩ := second.global id w between
    refine ⟨x, after, ?_⟩
    rcases two with rfl | two
    · refine one.imp_right fun ⟨sized, a, placed⟩ => ⟨second.layout ▸ sized, a, second.get a _ placed⟩
    · exact .inr two

end EntityTable

namespace Run

variable {r : Run} {m n : Module} {t u : EntityTable}

theorem Declares.retypes (declares : r.Declares m t n u) (sized : r.fields.Sized m.layout) : t.Retypes m n u := by
  cases declares with
  | settled => exact .refl m t
  | outgrown id v here known small types name =>
    have whole : (m.layout.allocSize? (.struct name r.fields.types (r.isPacked m.layout))).isSome :=
      DataLayout.allocSize?_struct (List.forall_mem_map.mpr sized) _ _
    refine ⟨rfl, fun a e found => (EntityTable.get?_resize t _ _ a).trans found, fun j w known => ?_⟩
    refine ⟨_, (Module.global?_setGlobalTy _ id _ j).trans (congrArg _ known), ?_⟩
    dsimp only
    by_cases same : j = id
    · subst same
      rw [if_pos rfl]
      -- The variable that was retyped is the one at the start of the run.
      exact .inr ⟨whole, r.fields.start, (EntityTable.get?_resize t _ _ _).trans here⟩
    · exact .inl (if_neg same)
  | created free =>
    refine ⟨rfl, fun a e found => ?_, fun j v known => ⟨v, global?_create known, .inl rfl⟩⟩
    rw [EntityTable.get?_putVar, if_neg, found]
    rintro rfl
    cases free.symm.trans found

theorem declareAll_retypes {runs : List Run} (sized : ∀ r ∈ runs, r.fields.Sized m.layout) :
    t.Retypes m (declareAll runs m t).1 (declareAll runs m t).2.1 := by
  induction runs generalizing m t with
  | nil => exact .refl m t
  | cons r rs ih =>
    obtain ⟨here, rest⟩ := List.forall_mem_cons.mp sized
    have first := (r.declares m t).retypes here
    exact first.trans (ih fun q member => first.layout ▸ rest q member)

end Run

namespace Module

variable {m n : Module} {t u : EntityTable} {cells : List Cell} {cursor last : EntryCursor} {built : BuiltGlobals}

theorem buildGlobals_retypes (inner : cursor.IsInner m) (takes : ∀ c ∈ cells, FieldList.Takes m.layout c.ty c.size)
    {ws stop : List Warning} (run : (m.buildGlobals t cells cursor).run.run ws = (.ok (n, u, last, built), stop)) :
    t.Retypes m n u := by
  obtain ⟨runs, s, formed, rfl, redirected, rfl, rfl⟩ := buildGlobals_ok run
  have sized := Run.ofCells_sized (fun c member => takes c (List.mem_mergeSort.mp member)) formed
  have declared := Run.declareAll_retypes (t := t) sized
  -- Redirection writes code only.
  have written : (Run.declareAll runs m t).1.WritesForm True cursor s.module s.cursor :=
    GlobalRedirection.redirectAll_writesForm redirected
  obtain ⟨keeps, -⟩ := written (inner.keep (Run.declareAll_keepsForm runs m t))
  refine declared.trans ⟨congrArg Target.dataLayout keeps.target, fun a e found => found, fun id v known => ?_⟩
  obtain ⟨w, after, -, same⟩ := keeps.global id v known
  exact ⟨w, after, .inl (same trivial)⟩

end Module

end VarRecovery
