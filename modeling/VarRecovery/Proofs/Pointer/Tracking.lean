import VarRecovery.Proofs.Code.Revision
import VarRecovery.Proofs.Pointer.Steps

/-!
Simplification keeps what is tracked to what is listed, also of code that is not well formed: it writes in front
of listed instructions, and untracks what it takes out.
-/

set_option autoImplicit false

namespace VarRecovery

namespace Func

variable {f g : Func} {anchor old : InstId} {gone : List InstId} {ptr result : ValueId} {block : BlockId}

theorem Revision.weaken (revision : Revision [] f g) (gone : List InstId) : Revision gone f g :=
  { revision with listed := fun _ listed _ => revision.still listed }

theorem addOffsets_revision (L : DataLayout) (tracked : f.Tracked) (offsets : List Nat) :
    Revision [] f (addOffsets L f offsets).1 ∧
      ∀ v ∈ (addOffsets L f offsets).2, (addOffsets L f offsets).1.graph.Has v := by
  induction offsets generalizing f with
  | nil => exact ⟨.refl tracked, nofun⟩
  | cons n ns ih =>
    obtain ⟨first, known⟩ := tracked.addImm (.ofInt L.pointerWidth n)
    obtain ⟨rest, others⟩ := ih first.tracked
    exact ⟨first.trans rest, List.forall_mem_cons.mpr ⟨rest.known _ known, others⟩⟩

theorem insertPath_revision (L : DataLayout) (tracked : f.Tracked) (listed : anchor ∈ f.code) (known : f.graph.Has ptr)
    (path : TyPath) (castTy : Option Ty) :
    Revision [] f (insertPath L f ptr path castTy anchor).1 ∧
      (insertPath L f ptr path castTy anchor).1.graph.Has (insertPath L f ptr path castTy anchor).2.2 := by
  obtain ⟨numbered, indexed⟩ := addOffsets_revision L tracked path.indices
  unfold insertPath
  generalize addOffsets L f path.indices = offsets at numbered indexed
  obtain ⟨f₁, indices⟩ := offsets
  have listed₁ := numbered.still listed
  obtain ⟨pointed, there⟩ := numbered.tracked.insertBefore listed₁ (.gep ptr indices) (.ptr path.ty)
    (List.forall_mem_cons.mpr ⟨numbered.known _ known, indexed⟩)
  dsimp only
  generalize f₁.insert (.gep ptr indices) (.ptr path.ty) (.before anchor) = gep at pointed there
  obtain ⟨f₂, part⟩ := gep
  have whole : Revision [] f f₂ := numbered.trans pointed
  split
  next => exact ⟨whole, there⟩
  next =>
    -- The rest of the offset is an index into what the part is cast to.
    obtain ⟨cast, base⟩ := pointed.tracked.castBefore (pointed.still listed₁) .bitcast there
      (restStep L castTy path.rest).1
    obtain ⟨added, index⟩ :=
      cast.tracked.addImm (.ofInt L.pointerWidth (path.rest / (restStep L castTy path.rest).2 : Nat))
    obtain ⟨last, value⟩ := added.tracked.insertBefore (added.still (cast.still (pointed.still listed₁))) (.gep _ [_])
      (restStep L castTy path.rest).1
      (List.forall_mem_cons.mpr ⟨added.known _ base, List.forall_mem_singleton.mpr index⟩)
    exact ⟨((whole.trans cast).trans added).trans last, value⟩

theorem foldSum_revision {L : DataLayout} (tracked : f.Tracked) {d : Displacement} {pointers : List ValueId}
    (listed : d.sum ∈ f.code) (folded : f.foldSum L ptr d = some (g, pointers)) : Revision [d.sum] f g := by
  obtain ⟨offset, -, folded⟩ := Option.bind_eq_some_iff.mp folded
  obtain ⟨sum, -, folded⟩ := Option.bind_eq_some_iff.mp folded
  obtain ⟨pointee, points, folded⟩ := Option.bind_eq_some_iff.mp folded
  obtain ⟨path, -, folded⟩ := Option.bind_eq_some_iff.mp folded
  have isPtr : (f.graph.ty ptr).isPtr := by
    cases ty : f.graph.ty ptr <;> simp_all [Ty.pointee?, Ty.isPtr]
  obtain ⟨written, value⟩ := insertPath_revision L tracked listed (Graph.lt_of_isPtr isPtr) path
    (f.graph.pointerCastTy? sum)
  generalize insertPath L f ptr path (f.graph.pointerCastTy? sum) d.sum = whole at folded written value
  obtain ⟨f₁, new, v⟩ := whole
  obtain ⟨cast, int⟩ := written.tracked.castBefore (written.still listed) .ptrToInt value (f.graph.ty sum)
  have replaced := cast.tracked.replaceUses sum int
  cases folded
  exact ((written.trans cast).trans replaced).trans (replaced.tracked.remove d.sum)

theorem castIncoming_revision (ty : Ty) (tracked : f.Tracked) (incoming : List (ValueId × BlockId))
    (known : ∀ e ∈ incoming, f.graph.Has e.1) :
    Revision [] f (castIncoming ty f incoming).1 ∧ ∀ pointers, (castIncoming ty f incoming).2 = some pointers →
      ∀ e ∈ pointers, (castIncoming ty f incoming).1.graph.Has e.1 := by
  induction incoming generalizing f with
  | nil =>
    refine ⟨.refl tracked, ?_⟩
    rintro _ ⟨⟩
    exact nofun
  | cons e rest ih =>
    obtain ⟨ptr, block⟩ := e
    obtain ⟨here, others⟩ := List.forall_mem_cons.mp known
    unfold castIncoming
    split
    next =>
      obtain ⟨revision, values⟩ := ih tracked others
      refine ⟨revision, fun pointers cast => ?_⟩
      obtain ⟨tail, found, rfl⟩ := Option.map_eq_some_iff.mp cast
      exact List.forall_mem_cons.mpr ⟨revision.known _ here, values tail found⟩
    next =>
      split
      next => exact ⟨.refl tracked, nofun⟩
      next anchor last =>
        obtain ⟨first, value⟩ := tracked.castBefore (mem_code_of_insts (List.mem_of_getLast? last)) .bitcast here ty
        obtain ⟨revision, values⟩ := ih first.tracked fun e member => first.known _ (others e member)
        refine ⟨first.trans revision, fun pointers cast => ?_⟩
        obtain ⟨tail, found, rfl⟩ := Option.map_eq_some_iff.mp cast
        exact List.forall_mem_cons.mpr ⟨revision.known _ value, values tail found⟩

theorem insertSunk_revision (tracked : f.Tracked) (old : InstId) (result : ValueId) (there : block ∈ f.listing.blockIds)
    {incoming : List (ValueId × BlockId)} (known : ∀ e ∈ incoming, f.graph.Has e.1) (ty : Ty) :
    Revision [old] f (f.insertSunk old result block incoming ty).1 := by
  have offered : f.listing.Offers (.top block) := there
  have operands : ∀ v ∈ (Inst.phi incoming ty).operands, f.graph.Has v := by
    intro v operand
    obtain ⟨e, member, rfl⟩ := List.mem_map.mp operand
    exact known e member
  obtain ⟨first, value⟩ := tracked.insert (.phi incoming ty) ty (.top block) operands offered
  unfold insertSunk
  dsimp only
  split
  next => exact first.weaken [old]
  next anchor behind =>
    have listed := mem_code_of_insts (List.mem_of_find?_eq_some behind)
    obtain ⟨cast, int⟩ := first.tracked.castBefore listed .ptrToInt value (f.graph.ty result)
    have replaced := cast.tracked.replaceUses result int
    exact ((first.trans cast).trans replaced).trans (replaced.tracked.remove old)

theorem sink_revision (tracked : f.Tracked) (old : InstId) : Revision [old] f (f.sink old).1 := by
  have known : ∀ e ∈ f.graph.uncastIncoming old, f.graph.Has e.1 := by
    intro e member
    unfold Graph.uncastIncoming at member
    split at member
    next incoming ty found =>
      obtain ⟨⟨v, block⟩, -, cast⟩ := List.mem_filterMap.mp member
      dsimp only at cast
      obtain ⟨⟨op, arg⟩, same, rfl⟩ := Option.map_eq_some_iff.mp cast
      exact tracked.known_cast same
    next => cases member
  unfold sink
  split
  next result block _ at_ =>
    dsimp only
    split
    next => exact .refl tracked
    next ty _ =>
      obtain ⟨cast, pointers⟩ := castIncoming_revision ty tracked _ known
      split
      next f₁ same => exact (same ▸ cast).weaken [old]
      next f₁ incoming same =>
        rw [same] at cast pointers
        have inside := Listing.mem_blockIds_of_insts (Listing.mem_insts_of_blockOf? tracked.blocks_nodup at_)
        exact cast.trans (insertSunk_revision cast.tracked old result (cast.blocks ▸ inside) (pointers incoming rfl) ty)
  next => exact .refl tracked

theorem removeDeadFrom_tracked (tracked : f.Tracked) (work : List InstId) : (f.removeDeadFrom work).1.Tracked :=
  removeDeadFrom_keeps (fun _ i _ _ before => (before.remove i).tracked) tracked work

end Func

namespace Simplification

variable {r : Simplification} {f : Func}

/-- Displacements of one pointer are of different sums, so those that are not yet folded are listed. -/
theorem foldl_fold_tracked {ptr : FuncId × ValueId} {ds : List Displacement} (tracked : r.module.Tracked)
    (found : r.module.func? ptr.1 = some f) (listed : ∀ d ∈ ds, d.sum ∈ f.code)
    (once : (ds.map Displacement.sum).Nodup) : (ds.foldl (fold ptr) r).module.Tracked := by
  induction ds generalizing r f with
  | nil => exact tracked
  | cons d ds ih =>
    obtain ⟨here, rest⟩ := List.forall_mem_cons.mp listed
    obtain ⟨absent, others⟩ := List.nodup_cons.mp once
    rw [List.foldl_cons]
    unfold fold
    simp only [found]
    cases folded : f.foldSum r.module.layout ptr.2 d with
    | none => exact ih tracked found rest others
    | some written =>
      obtain ⟨g, pointers⟩ := written
      have revision := Func.foldSum_revision (tracked _ f found) here folded
      refine ih (tracked.updateFunc fun _ _ => revision.tracked) (Module.func?_updateFunc_self found _)
        (fun e member => revision.listed _ (rest e member) fun same => ?_) others
      exact absent (List.mem_map.mpr ⟨e, member, List.mem_singleton.mp same⟩)

theorem foldAll_tracked (tracked : r.module.Tracked) (ptr : FuncId × ValueId) : (r.foldAll ptr).module.Tracked := by
  unfold foldAll
  split
  next => exact tracked
  next f found =>
    refine foldl_fold_tracked tracked found (fun d member => ?_) (Func.nodup_displacements (tracked _ f found).valid _)
    exact (Func.mem_codeUsers.mp (Func.mem_displacements.mp member).2.1).2

theorem sink_tracked (tracked : r.module.Tracked) (id : FuncId) (phi : InstId) : (sink id r phi).module.Tracked := by
  unfold sink
  split
  next => exact tracked
  next f found =>
    have after : (r.module.updateFunc id fun _ => (f.sink phi).1).Tracked :=
      tracked.updateFunc fun _ _ => (Func.sink_revision (tracked id f found) phi).tracked
    dsimp only
    split <;> exact after

theorem removeDead_tracked (tracked : r.module.Tracked) (id : FuncId) : (r.removeDead id).module.Tracked :=
  tracked.updateFunc fun f found => Func.removeDeadFrom_tracked (tracked id f found) _

theorem sinkAll_tracked (tracked : r.module.Tracked) (id : FuncId) : (r.sinkAll id).module.Tracked := by
  unfold sinkAll
  split
  next => exact tracked
  next =>
    exact List.foldlRecOn (motive := fun r => r.module.Tracked) _ (sink id) tracked
      fun _ before phi _ => sink_tracked before id phi

theorem round_tracked {m : Module} (tracked : m.Tracked) (fr : Frontier) : (round m fr).module.Tracked :=
  round_induction (P := fun r => r.module.Tracked) (fun _ ptr before => foldAll_tracked before ptr)
    (fun _ id before => sinkAll_tracked before id) (fun _ id before => removeDead_tracked before id) tracked

end Simplification

namespace Module

variable {m : Module}

theorem simplifyPointers_tracked (tracked : m.Tracked) (fr : Frontier) (limit : Nat) :
    (m.simplifyPointers fr limit).module.Tracked :=
  simplifyRounds_induction (P := fun r => r.module.Tracked)
    (fun _ fr _ before => Simplification.round_tracked before fr) limit limit tracked

end Module

end VarRecovery
