import VarRecovery.Access.Lowering
import VarRecovery.Proofs.Code.Revision
import VarRecovery.Proofs.Recovering

/-!
Lowering writes in front of the calls that it takes out, each of which is listed until then. So what is tracked
stays what is listed.
-/

set_option autoImplicit false

namespace VarRecovery

namespace Func

variable {f : Func} {call : InstId} {v address : ValueId}

theorem accessPointer_revision (tracked : f.Tracked) (listed : call ∈ f.code) (known : f.graph.Has address) (ty : Ty) :
    Revision [] f (f.accessPointer call address ty).1 ∧
      (f.accessPointer call address ty).1.graph.Has (f.accessPointer call address ty).2.1 := by
  unfold accessPointer
  split
  next ptr cast =>
    have there := tracked.known_cast cast
    split
    next => exact ⟨.refl tracked, there⟩
    next => exact tracked.castBefore listed .bitcast there (.ptr ty)
  next => exact tracked.castBefore listed .intToPtr known (.ptr ty)

/-- An argument that is missing is the first value, so it is there if any value is. -/
theorem Tracked.known_argument (tracked : f.Tracked) (first : f.graph.Has ⟨0⟩) (call : InstId) (n : Nat) :
    f.graph.Has (f.argument call n) := by
  rw [argument, List.getD_eq_getElem?_getD]
  cases found : (f.graph.operands call)[n]? with
  | none => exact first
  | some v => exact tracked.known (List.mem_of_getElem? found)

theorem forwardResult_revision (tracked : f.Tracked) (known : f.graph.Has v) (call : InstId) :
    Revision [] f (f.forwardResult call v) := by
  unfold forwardResult
  split
  next result _ => exact tracked.replaceUses result known
  next => exact .refl tracked

theorem lowerToLoad_revision (tracked : f.Tracked) (listed : call ∈ f.code) (first : f.graph.Has ⟨0⟩)
    (width : AccessWidth) : Revision [] f (f.lowerToLoad call width).1 := by
  unfold lowerToLoad
  obtain ⟨pointed, pointer⟩ :=
    accessPointer_revision tracked listed (tracked.known_argument first call 1) width.ty
  generalize f.accessPointer call (f.argument call 1) width.ty = access at pointed pointer
  obtain ⟨f₁, ptr, source⟩ := access
  have listed₁ := pointed.still listed
  obtain ⟨read, loaded⟩ :=
    pointed.tracked.insertBefore listed₁ (.load ptr width.ty) width.ty (List.forall_mem_singleton.mpr pointer)
  dsimp only
  generalize f₁.insert (.load ptr width.ty) width.ty (.before call) = load at read loaded
  obtain ⟨f₂, value⟩ := load
  have whole : Revision [] f f₂ := pointed.trans read
  split
  next => exact whole
  next result _ =>
    split
    next =>
      obtain ⟨cut, short⟩ := read.tracked.castBefore (read.still listed₁) .fpTrunc loaded (f₂.graph.ty result)
      exact (whole.trans cut).trans (forwardResult_revision cut.tracked short call)
    next => exact whole.trans (forwardResult_revision read.tracked loaded call)

theorem lowerToStore_revision (tracked : f.Tracked) (listed : call ∈ f.code) (first : f.graph.Has ⟨0⟩)
    (width : AccessWidth) : Revision [] f (f.lowerToStore call width).1 := by
  unfold lowerToStore
  obtain ⟨pointed, pointer⟩ :=
    accessPointer_revision tracked listed (tracked.known_argument first call 1) width.ty
  generalize f.accessPointer call (f.argument call 1) width.ty = access at pointed pointer
  obtain ⟨f₁, ptr, source⟩ := access
  have listed₁ := pointed.still listed
  have written (f₂ : Func) (value : ValueId) (extended : Revision [] f₁ f₂) (known : f₂.graph.Has value) :
      Revision [] f (((f₂.insertInst (.store ptr value) (.before call)).1.forwardResult call
        ((f₂.insertInst (.store ptr value) (.before call)).1.argument call 0))) := by
    have offered : f₂.listing.Offers (.before call) := extended.still listed₁
    have operands : ∀ v ∈ (Inst.store ptr value).operands, f₂.graph.Has v :=
      List.forall_mem_cons.mpr ⟨extended.known _ pointer, List.forall_mem_singleton.mpr known⟩
    obtain ⟨stored, -⟩ := extended.tracked.insertInst (.store ptr value) (.before call) operands offered
    have whole : Revision [] f _ := (pointed.trans extended).trans stored
    exact whole.trans (forwardResult_revision stored.tracked
      (stored.tracked.known_argument (whole.known _ first) call 0) call)
  have argument := pointed.tracked.known_argument (pointed.known _ first) call 2
  dsimp only
  split
  next =>
    obtain ⟨extended, long⟩ := pointed.tracked.castBefore listed₁ .fpExt argument .f80
    exact written _ _ extended long
  next => exact written f₁ _ (.refl pointed.tracked) argument

theorem lowerCall_revision (tracked : f.Tracked) (listed : call ∈ f.code) (first : f.graph.Has ⟨0⟩)
    (intrinsic : Intrinsic) : Revision [call] f (f.lowerCall call intrinsic).1 := by
  have gone {g : Func} (written : Revision [] f g) : Revision [call] f (g.remove call) :=
    written.trans (written.tracked.remove call)
  unfold lowerCall
  cases intrinsic with
  | readMemory width => exact gone (lowerToLoad_revision tracked listed first width)
  | writeMemory width => exact gone (lowerToStore_revision tracked listed first width)
  | _ => exact gone (forwardResult_revision tracked (tracked.known_argument first call 0) call)

end Func

namespace LoweredCall

def key (c : LoweredCall) : FuncId × InstId :=
  (c.func, c.inst)

/-- A call that is still to be lowered is listed, in a function that has values. -/
def Awaits (m : Module) (c : LoweredCall) : Prop :=
  ∃ f, m.func? c.func = some f ∧ c.inst ∈ f.code ∧ f.graph.Has ⟨0⟩

end LoweredCall

namespace Lowering

variable {l : Lowering} {c : LoweredCall} {calls : List LoweredCall}

theorem addCall_tracked (tracked : l.module.Tracked) (awaits : c.Awaits l.module) :
    (l.addCall c).module.Tracked ∧
      ∀ d : LoweredCall, d.Awaits l.module → d.key ≠ c.key → d.Awaits (l.addCall c).module := by
  obtain ⟨f, found, listed, first⟩ := awaits
  have lowered := Func.lowerCall_revision (tracked _ f found) listed first c.intrinsic
  unfold addCall
  simp only [found]
  refine ⟨tracked.updateFunc fun _ _ => lowered.tracked, fun d ⟨g, known, there, values⟩ other => ?_⟩
  by_cases same : d.func = c.func
  · cases found.symm.trans (same ▸ known)
    refine ⟨_, same ▸ Module.func?_updateFunc_self found _, lowered.listed _ there ?_, lowered.known _ values⟩
    exact fun call => other (Prod.ext same (List.mem_singleton.mp call))
  · exact ⟨g, by rw [Module.func?_updateFunc, if_neg same, known], there, values⟩

-- Each call is lowered once, so those that are still to come stay listed.
theorem foldl_addCall_tracked (tracked : l.module.Tracked) (awaits : ∀ c ∈ calls, c.Awaits l.module)
    (once : (calls.map LoweredCall.key).Nodup) : (calls.foldl addCall l).module.Tracked := by
  induction calls generalizing l with
  | nil => exact tracked
  | cons c calls ih =>
    obtain ⟨here, rest⟩ := List.forall_mem_cons.mp awaits
    obtain ⟨absent, others⟩ := List.nodup_cons.mp once
    obtain ⟨after, stays⟩ := addCall_tracked tracked here
    refine ih after (fun d member => stays d (rest d member) fun same => ?_) others
    exact absent (List.mem_map.mpr ⟨d, member, same⟩)

end Lowering

namespace Module

variable {m : Module} {start : String}

theorem loweredCall?_eq_some {f : FuncId} {g : Graph} {i : InstId} {c : LoweredCall}
    (found : m.loweredCall? start f g i = .ok (some c)) :
    c.key = (f, i) ∧ ∃ callee args ret, g.inst? i = some (.call callee args ret) ∧ args ≠ [] := by
  unfold loweredCall? at found
  split at found
  case h_2 => cases found
  next callee args ret call =>
    split at found
    next => cases found
    next intrinsic _ =>
      split at found
      next => cases found
      next lowered =>
        split at found
        next => cases found
        next =>
          split at found
          next => cases found
          next enough =>
            cases found
            refine ⟨rfl, callee, args, ret, call, List.ne_nil_of_length_pos ?_⟩
            refine Nat.lt_of_lt_of_le ?_ (Nat.le_of_not_lt enough)
            cases intrinsic <;> simp_all [Intrinsic.isLowered, Intrinsic.arity]

theorem mem_allCode {f : FuncId} {i : InstId} : (f, i) ∈ m.allCode ↔ m.Lists f i := by
  unfold Lists
  have inside (func : Func) (found : m.func? f = some func) : f.index < m.funcs.size :=
    (Array.getElem?_eq_some_iff.mp found).1
  cases found : m.func? f with
  | none => simp_all [allCode]
  | some func =>
    have listed : f ∈ m.funcIds := List.mem_map.mpr ⟨f.index, List.mem_range.mpr (inside func found), rfl⟩
    simp only [allCode, List.mem_flatMap, List.mem_map, Prod.mk.injEq]
    constructor
    · rintro ⟨_, -, _, member, rfl, rfl⟩
      exact ⟨func, rfl, by simpa [found] using member⟩
    · rintro ⟨_, ⟨⟩, member⟩
      exact ⟨f, listed, i, by simpa [found] using member, rfl, rfl⟩

theorem nodup_allCode (once : ∀ id f, m.func? id = some f → f.code.Nodup) : m.allCode.Nodup := by
  have ids : m.funcIds.Nodup := List.nodup_range.map fun a b same => by simpa using same
  refine List.nodup_flatMap.mpr ⟨fun f _ => ?_, ids.imp fun {f g} other x left right => ?_⟩
  · refine List.Nodup.map (fun i j same => (Prod.mk.inj same).2) ?_
    cases found : m.func? f with
    | none => exact .nil
    | some func => exact once f func found
  · obtain ⟨_, -, rfl⟩ := List.mem_map.mp left
    obtain ⟨_, -, same⟩ := List.mem_map.mp right
    exact other (Prod.mk.inj same).1.symm

theorem mapM_lowered {look : FuncId × InstId → Except RecoveryError (Option LoweredCall)}
    (key : ∀ x c, look x = .ok (some c) → c.key = x) {xs : List (FuncId × InstId)} {calls : List (Option LoweredCall)}
    (found : xs.mapM look = .ok calls) :
    ((calls.filterMap id).map LoweredCall.key).Sublist xs ∧
      ∀ c ∈ calls.filterMap id, look c.key = .ok (some c) := by
  induction xs generalizing calls with
  | nil =>
    cases found
    exact ⟨.slnil, nofun⟩
  | cons x xs ih =>
    rw [List.mapM_cons] at found
    obtain ⟨call, first, found⟩ := Recovering.bind_eq_ok found
    obtain ⟨others, rest, done⟩ := Recovering.bind_eq_ok found
    cases done
    obtain ⟨keys, looked⟩ := ih rest
    cases call with
    | none => exact ⟨keys.cons x, looked⟩
    | some c =>
      have here := key x c first
      refine ⟨?_, List.forall_mem_cons.mpr ⟨by rwa [here], looked⟩⟩
      exact here ▸ keys.cons_cons c.key

theorem loweredCalls_awaits (tracked : m.Tracked) {calls : List LoweredCall}
    (found : m.loweredCalls start = .ok calls) : (∀ c ∈ calls, c.Awaits m) ∧ (calls.map LoweredCall.key).Nodup := by
  obtain ⟨all, looked, done⟩ := Recovering.bind_eq_ok found
  cases done
  obtain ⟨keys, calls⟩ := mapM_lowered (fun x c here => (loweredCall?_eq_some here).1) looked
  refine ⟨fun c member => ?_, keys.nodup (nodup_allCode fun id f known => (tracked id f known).code_nodup)⟩
  obtain ⟨f, known, listed⟩ := mem_allCode.mp (keys.subset (List.mem_map_of_mem member))
  obtain ⟨-, callee, args, ret, call, some_⟩ := loweredCall?_eq_some (calls c member)
  rw [show m.graph c.key.1 = f.graph from graph_of_func? known] at call
  obtain ⟨v, argument⟩ := List.exists_mem_of_ne_nil args some_
  have operand : v ∈ f.graph.operands c.key.2 := Graph.mem_operands.mpr ⟨_, call, argument⟩
  exact ⟨f, known, listed, Nat.zero_lt_of_lt ((tracked _ f known).known operand)⟩

theorem lower_tracked (tracked : m.Tracked) {l : Lowering} (lowered : m.lower start = .ok l) : l.module.Tracked := by
  obtain ⟨calls, found, done⟩ := Recovering.bind_eq_ok lowered
  cases done
  obtain ⟨awaits, once⟩ := loweredCalls_awaits tracked found
  exact Lowering.foldl_addCall_tracked tracked awaits once

end Module

end VarRecovery
