import Mathlib.Data.Fintype.EquivFin
import Mathlib.Logic.Function.Basic
import VarRecovery.Proofs.Access.Lowered

/-!
Functions in which calls were lowered, one after the other. Each call was taken out behind what computes it, and all
other instructions use what values became: the result of a read is what was loaded, and that of a write or a barrier
the state of memory that it was given, for which in turn other calls may give another.
-/

set_option autoImplicit false

namespace VarRecovery

namespace Func

variable {f g h : Func} {call i : InstId} {news : List InstId} {inst : Inst} {v w : ValueId} {ty : Ty}
  {intrinsic : Intrinsic}

/-! ### Taking a call out -/

/-- The uses of the result of a call become those of another value. -/
def forwarding (f : Func) (call : InstId) (v w : ValueId) : ValueId :=
  if f.graph.result? call = some w then v else w

structure TakesOut (call : InstId) (v : ValueId) (f g : Func) : Prop where
  valid : g.Valid
  size : g.graph.insts.size = f.graph.insts.size
  listing : g.listing = f.listing.remove call
  value : ∀ w, g.graph.value? w = f.graph.value? w
  result : ∀ i, g.graph.result? i = f.graph.result? i
  inst : ∀ i ∈ f.code, g.graph.inst? i = (f.graph.inst? i).map (·.mapOperands (f.forwarding call v))
  form : ∀ i, ∃ σ, g.graph.inst? i = (f.graph.inst? i).map (·.mapOperands σ)

theorem forwarding_eq_self (other : f.graph.result? call ≠ some w) (v : ValueId) : f.forwarding call v w = w :=
  if_neg other

theorem forwarding_self (f : Func) (call : InstId) (v : ValueId) : f.forwarding call v v = v :=
  ite_self _

theorem takesOut (valid : f.Valid) (there : f.graph.Has v) (call : InstId) :
    TakesOut call v f ((f.forwardResult call v).remove call) := by
  unfold forwardResult
  cases result : f.graph.result? call with
  | none =>
    have still : f.forwarding call v = id := funext fun w => forwarding_eq_self (by rw [result]; nofun) v
    have same (i : InstId) : (f.remove call).graph.inst? i = (f.graph.inst? i).map (·.mapOperands id) :=
      (Graph.inst?_untrack f.graph call i).trans (by simp)
    have size : (f.remove call).graph.insts.size = f.graph.insts.size :=
      congrArg (·.insts.size) (Graph.untrack_eq f.graph call).1
    exact ⟨valid.remove call, size, rfl, Graph.value?_untrack f.graph call, Graph.result?_untrack f.graph call,
      fun i _ => still ▸ same i, fun i => ⟨id, same i⟩⟩
  -- The user lists are exact on listed code, so there a rewrite of the users of the result
  -- is a rewrite of every operand; an unlisted instruction may be left behind.
  | some r =>
    have moves : (fun w => if w = r then v else w) = f.forwarding call v := by
      funext w
      rw [forwarding, result]
      exact ite_congr (propext ⟨fun same => congrArg some same.symm, fun same => (Option.some.inj same).symm⟩)
        (fun _ => rfl) fun _ => rfl
    have listed (i : InstId) (inside : i ∈ f.code) := inst?_replaceUses_of_listed valid inside r v
    have size : ((f.graph.replaceUses r v).untrack call).insts.size = f.graph.insts.size :=
      (congrArg (·.insts.size) (Graph.untrack_eq (f.graph.replaceUses r v) call).1).trans
        (Graph.replaceUses_eq f.graph r v).2.2
    refine ⟨(valid.replaceUses r there).remove call, size, rfl, fun w => ?_, fun i => ?_, fun i inside => ?_, fun i => ?_⟩
    · exact (Graph.value?_untrack ..).trans (Graph.value?_replaceUses ..)
    · exact (Graph.result?_untrack ..).trans (Graph.result?_replaceUses ..)
    · rw [← moves]
      exact (Graph.inst?_untrack ..).trans (listed i inside)
    · have whole := (Graph.inst?_untrack (f.graph.replaceUses r v) call i).trans (Graph.inst?_replaceUses f.graph r v i)
      by_cases user : i ∈ f.graph.users r
      · exact ⟨_, whole.trans (if_pos user)⟩
      · refine ⟨id, whole.trans ((if_neg user).trans ?_)⟩
        simp

/-! ### What lowering comes to -/

/-- The calls that `k` knows were lowered in `f`, in whose place `news` came, and values became others by `σ`. -/
structure Lowered (k : InstId → Option Intrinsic) (f g : Func) (σ : ValueId → ValueId) (news : InstId → List InstId) :
    Prop where
  listing : g.listing = f.listing.updateAll fun i => if (k i).isSome then news i else [i]
  fresh : ∀ i t, k i = some t → ∀ j ∈ news i, f.graph.insts.size ≤ j.index
  value : ∀ v val, f.graph.value? v = some val → g.graph.value? v = some val
  kept : ∀ i ∈ f.code, k i = none → g.graph.inst? i = (f.graph.inst? i).map (·.mapOperands σ)
  computes : ∀ i t, k i = some t →
    ∃ v, Computes f g σ i t (news i) v ∧ ∀ r, f.graph.result? i = some r → σ r = v
  still : ∀ v, (∀ i t, k i = some t → f.graph.result? i ≠ some v) → σ v = v

/-- A value that listed code makes, if not a call that was lowered. -/
def Sourced (k : InstId → Option Intrinsic) (g : Func) (v : ValueId) : Prop :=
  g.graph.Has v ∧ ∀ j, g.graph.definition? v = some j → j ∈ g.code ∨ (k j).isSome

/-- What holds after each call. Values that may be used became such that are made by listed code or by a
call that was lowered. -/
structure LoweredSoFar (k : InstId → Option Intrinsic) (f g : Func) (σ : ValueId → ValueId)
    (news : InstId → List InstId) : Prop extends Lowered k f g σ news where
  valid : g.Valid
  among : ∀ i t, k i = some t → i ∈ f.code
  size : f.graph.insts.size ≤ g.graph.insts.size
  result : ∀ i, i.index < f.graph.insts.size → g.graph.result? i = f.graph.result? i
  calls : ∀ i t, k i = some t → ∃ inst, g.graph.inst? i = some inst ∧ inst.isCall
  settled : ∀ v, σ (σ v) = σ v
  sources : ∀ v, f.Usable True v → Sourced k g (σ v)

variable {k : InstId → Option Intrinsic} {σ : ValueId → ValueId} {newsOf : InstId → List InstId}

theorem LoweredSoFar.refl (valid : f.Valid) : LoweredSoFar (fun _ => none) f f id fun _ => [] where
  listing := by simp [Listing.updateAll]
  fresh := nofun
  value _ _ found := found
  kept i _ _ := by simp
  computes := nofun
  still _ _ := rfl
  valid := valid
  among := nofun
  size := Nat.le_refl _
  result _ _ := rfl
  calls := nofun
  settled _ := rfl
  sources v usable := ⟨usable.lt, fun j made => .inl (usable.defined trivial j made)⟩

theorem LoweredSoFar.mem_code (lowering : LoweredSoFar k f g σ newsOf) :
    i ∈ g.code ↔ (i ∈ f.code ∧ k i = none) ∨ ∃ c t, k c = some t ∧ i ∈ newsOf c := by
  rw [code, lowering.listing, Listing.allInsts_updateAll, List.mem_flatMap]
  constructor
  · rintro ⟨c, listed, here⟩
    cases known : k c with
    | none =>
      rw [known] at here
      cases List.mem_singleton.mp here
      exact .inl ⟨listed, known⟩
    | some t =>
      rw [known] at here
      exact .inr ⟨c, t, known, here⟩
  · rintro (⟨listed, known⟩ | ⟨c, t, known, here⟩)
    · exact ⟨i, listed, by rw [known]; exact List.mem_singleton_self i⟩
    · exact ⟨c, lowering.among c t known, by rw [known]; exact here⟩

/-- A value that `g` has from an instruction of `f` is of `f`. -/
theorem LoweredSoFar.value_of_old (lowering : LoweredSoFar k f g σ newsOf) (valid : f.Valid)
    (old : i.index < f.graph.insts.size) (found : g.graph.value? v = some (.result i ty)) :
    f.graph.value? v = some (.result i ty) := by
  have result : g.graph.result? i = some v :=
    (lowering.valid.graph.result_iff i v).mpr (Graph.definition?_eq_some.mpr ⟨ty, found⟩)
  have before := (lowering.result i old).symm.trans result
  obtain ⟨ty', known⟩ := Graph.definition?_eq_some.mp ((valid.graph.result_iff i v).mp before)
  cases found.symm.trans (lowering.value v _ known)
  exact known

/-- An address that is cast from a pointer is so by an instruction that was there. -/
theorem LoweredSoFar.cast_source (lowering : LoweredSoFar k f g σ newsOf) (valid : f.Valid) (usable : f.Usable True v)
    {p : ValueId} {int : Ty} (made : g.graph.Defines (σ v) i (.cast .ptrToInt p int) ty) :
    i ∈ g.code ∧ ∃ q, f.graph.Defines (σ v) i (.cast .ptrToInt q int) ty ∧ σ q = p := by
  rcases (lowering.sources v usable).2 i made.definition? with listed | gone
  · refine ⟨listed, ?_⟩
    rcases lowering.mem_code.mp listed with ⟨old, awaits⟩ | ⟨c, t, known, new⟩
    -- An instruction that is left has the operands it had, up to the values that became others.
    · have value := lowering.value_of_old valid (valid.code_lt i old) made.value
      obtain ⟨inst, found, same⟩ := Option.map_eq_some_iff.mp ((lowering.kept i old awaits).symm.trans made.inst)
      cases inst with
      | cast op q ty' =>
        cases same
        exact ⟨q, ⟨value, found⟩, rfl⟩
      | _ => cases same
    · obtain ⟨w, computes, -⟩ := lowering.computes c t known
      obtain ⟨inst, found, plain, -⟩ := computes.uses i new
      cases found.symm.trans made.inst
      exact absurd rfl (plain p int)
  · obtain ⟨t, known⟩ := Option.isSome_iff_exists.mp gone
    obtain ⟨inst, found, isCall⟩ := lowering.calls i t known
    cases found.symm.trans made.inst
    cases isCall

theorem LoweredSoFar.typedSo (lowering : LoweredSoFar k f g σ newsOf) {p : Ty → Prop} (typed : h.TypedSo id (σ v) p) :
    h.TypedSo σ v p := by
  obtain ⟨w, there, same, holds⟩ := typed
  cases same
  exact ⟨σ v, there, lowering.settled v, holds⟩

theorem LoweredSoFar.points (lowering : LoweredSoFar k f g σ newsOf) (valid : f.Valid) (usable : f.Usable True v)
    {ptr : ValueId} (points : Points g h id (σ v) ty ptr news) : Points f h σ v ty ptr news := by
  cases points with
  | same made typed =>
    obtain ⟨-, q, cast, rfl⟩ := lowering.cast_source valid usable made
    exact .same cast (lowering.typedSo typed)
  | bitcast made typed cast =>
    obtain ⟨-, q, from_, rfl⟩ := lowering.cast_source valid usable made
    exact .bitcast from_ (lowering.typedSo typed) cast
  | intToPtr cast => exact .intToPtr cast

/-- What computes a call in what `f` became computes the call of `f`. -/
theorem LoweredSoFar.start (lowering : LoweredSoFar k f g σ newsOf) (valid : f.Valid)
    (arguments : ∀ n < intrinsic.arity, g.argument call n = σ (f.argument call n))
    (usable : ∀ n < intrinsic.arity, f.Usable True (f.argument call n))
    (result : g.graph.result? call = f.graph.result? call) (computes : Computes g h id call intrinsic news v) :
    Computes f h σ call intrinsic news v := by
  have ty_eq {r : ValueId} (known : f.graph.result? call = some r) : g.graph.ty r = f.graph.ty r := by
    obtain ⟨val, found⟩ := Graph.exists_value (valid.graph.result_lt known).2
    rw [Graph.ty, lowering.value r val found, Graph.ty, found]
  cases computes with
  | @load width ptr v casts i points load plain =>
    have address := arguments 1 Nat.one_lt_two
    rw [address] at points
    refine .load (lowering.points valid (usable 1 Nat.one_lt_two) points) load fun wide r known => ?_
    rw [← ty_eq known]
    exact plain wide r (result.trans known)
  | @cutLoad ptr long v r casts i j points load known other cut =>
    have address := arguments 1 Nat.one_lt_two
    rw [address] at points
    have known := result.symm.trans known
    rw [ty_eq known] at other cut
    exact .cutLoad (lowering.points valid (usable 1 Nat.one_lt_two) points) load known other cut
  | @store width ptr casts i points plain store =>
    have address := arguments 1 (show 1 < 3 by decide)
    have stored := arguments 2 (show 2 < 3 by decide)
    have state := arguments 0 (show 0 < 3 by decide)
    rw [address] at points
    simp only [id, stored, state] at plain store ⊢
    exact .store (lowering.points valid (usable 1 (show 1 < 3 by decide)) points)
      (fun wide => lowering.typedSo (plain wide)) store
  | @longStore ptr long casts i j points other extend store =>
    have address := arguments 1 (show 1 < 3 by decide)
    have stored := arguments 2 (show 2 < 3 by decide)
    have state := arguments 0 (show 0 < 3 by decide)
    rw [address] at points
    simp only [id, stored, state] at other extend ⊢
    have points := lowering.points valid (usable 1 (show 1 < 3 by decide)) points
    exact .longStore points (lowering.typedSo other) extend store
  | barrier =>
    rw [id, arguments 0 Nat.one_pos]
    exact .barrier

/-! ### One call more -/

theorem TakesOut.mem_code (out : TakesOut call v f g) : i ∈ g.code ↔ i ∈ f.code ∧ i ≠ call := by
  rw [code, out.listing, Listing.allInsts_remove, List.mem_filter, code]
  simp

theorem TakesOut.definition (out : TakesOut call v f g) (w : ValueId) :
    g.graph.definition? w = f.graph.definition? w := by
  rw [Graph.definition?, out.value, Graph.definition?]

/-- Only the result of the call becomes another value, so listed code is carried over. -/
theorem TakesOut.carries (out : TakesOut call v g h) (valid : g.Valid) (listed : ∀ i ∈ news, i ∈ g.code)
    (absent : call ∉ news)
    (cast : ∀ w i op p int ty, f.graph.Defines w i (.cast op p int) ty → g.graph.result? call ≠ some w) :
    Carries f g h (g.forwarding call v) news where
  value w val found := (out.value w).trans found
  inst i new inst found := by rw [out.inst i (listed i new), found, Option.map_some]
  written i new w made := by
    refine forwarding_eq_self (fun result => absent ?_) v
    cases ((valid.graph.result_iff call w).mp result).symm.trans made
    exact new
  cast w i op p int ty made := forwarding_eq_self (cast w i op p int ty made) v

/-- The code that computes a call is new, so it does not hold the call and is not of those that were there. -/
theorem LoweredSoFar.absent (lowering : LoweredSoFar k f g σ newsOf) (old : call.index < f.graph.insts.size)
    {t : Intrinsic} (known : k i = some t) : call ∉ newsOf i :=
  fun member => Nat.lt_irrefl _ (Nat.lt_of_lt_of_le old (lowering.fresh i t known call member))

theorem LoweredSoFar.listing_step (lowering : LoweredSoFar k f g σ newsOf) (old : call.index < f.graph.insts.size)
    (awaits : k call = none) (writes : WritesBefore call news g h) (t : Intrinsic) :
    h.listing.remove call = f.listing.updateAll fun i =>
      if (Function.update k call (some t) i).isSome then Function.update newsOf call news i else [i] := by
  have absent : call ∉ news := writes.puts.absent (Nat.lt_of_lt_of_le old lowering.size)
  rw [writes.puts.listing, Listing.remove_put absent, Listing.swap, lowering.listing, Listing.updateAll_updateAll]
  congr 1
  funext i
  by_cases here : i = call
  · subst here
    simp [awaits]
  · rw [Function.update_of_ne here, Function.update_of_ne here]
    cases known : k i with
    | none => simp [here]
    | some t' => exact Listing.flatMap_of_not_mem (fun j other => if_neg other) (lowering.absent old known)

/-- What a call becomes stays so. -/
theorem LoweredSoFar.settled_source (lowering : LoweredSoFar k f g σ newsOf) (valid : f.Valid)
    (writes : WritesBefore call news g h) (computes : Computes f h σ call intrinsic news v) : σ v = v := by
  rcases computes.source with ⟨-, j, new, made⟩ | ⟨-, same⟩
  · -- What is made by new code is no result of a call that was there.
    refine lowering.still v fun i t known result => ?_
    have old := valid.code_lt i (lowering.among i t known)
    have old' := Nat.lt_of_lt_of_le old lowering.size
    have result' := (writes.puts.result i old').trans ((lowering.result i old).trans result)
    have same : i = j := Option.some.inj (((writes.valid.graph.result_iff i v).mp result').symm.trans made)
    exact Nat.not_lt_of_le (writes.puts.fresh j new) (same ▸ old')
  · rw [same, lowering.settled]

variable {last : Func}

theorem Sourced.step (sourced : Sourced k g w) (writes : WritesBefore call news g h) (out : TakesOut call v h last)
    (t : Intrinsic) : Sourced (Function.update k call (some t)) last w := by
  obtain ⟨val, found⟩ := Graph.exists_value sourced.1
  have still : last.graph.value? w = some val := (out.value w).trans (writes.puts.value w val found)
  refine ⟨Graph.value?_lt still, fun j made => ?_⟩
  by_cases here : j = call
  · exact .inr (by rw [here, Function.update_self]; rfl)
  · have before : g.graph.definition? w = some j := by rwa [Graph.definition?, found, ← still]
    rw [Function.update_of_ne here]
    exact (sourced.2 j before).imp_left fun listed => out.mem_code.mpr ⟨writes.listed listed, here⟩

/-- A call is known to be lowered because it is the last one, or from before. -/
theorem known_update {t : Intrinsic} (lowered : Function.update k call (some intrinsic) i = some t) :
    (i = call ∧ intrinsic = t) ∨ (i ≠ call ∧ k i = some t) := by
  by_cases here : i = call
  · rw [here, Function.update_self] at lowered
    exact .inl ⟨here, Option.some.inj lowered⟩
  · rw [Function.update_of_ne here] at lowered
    exact .inr ⟨here, lowered⟩

theorem LoweredSoFar.result_step (lowering : LoweredSoFar k f g σ newsOf) (writes : WritesBefore call news g h)
    (old : i.index < f.graph.insts.size) : h.graph.result? i = f.graph.result? i :=
  (writes.puts.result i (Nat.lt_of_lt_of_le old lowering.size)).trans (lowering.result i old)

/-- The result of a call is the result of no cast, so code that computes another call goes on to compute it. -/
theorem LoweredSoFar.carries_step (lowering : LoweredSoFar k f g σ newsOf) (valid : f.Valid) (listed : call ∈ f.code)
    (found : f.graph.inst? call = some inst) (isCall : inst.isCall) (writes : WritesBefore call news g h)
    (out : TakesOut call v h last) {code : List InstId} (inside : ∀ i ∈ code, i ∈ h.code) (absent : call ∉ code) :
    Carries f h last (h.forwarding call v) code := by
  have result := lowering.result_step writes (valid.code_lt call listed)
  refine out.carries writes.valid inside absent fun w i op p int ty made result' => ?_
  have same := (valid.graph.result_iff call w).mp (result.symm.trans result')
  cases same.symm.trans made.definition?
  cases found.symm.trans made.inst
  cases isCall

/-- The result of the call was not yet another value, and becomes `v`. -/
theorem LoweredSoFar.result_becomes (lowering : LoweredSoFar k f g σ newsOf) (valid : f.Valid) (listed : call ∈ f.code)
    (awaits : k call = none) (writes : WritesBefore call news g h) {r : ValueId}
    (known : f.graph.result? call = some r) (v : ValueId) : h.forwarding call v (σ r) = v := by
  have alone : σ r = r := by
    refine lowering.still r fun i t lowered known' => ?_
    cases ((valid.graph.result_iff call r).mp known).symm.trans ((valid.graph.result_iff i r).mp known')
    cases lowered.symm.trans awaits
  rw [alone, forwarding, if_pos ((lowering.result_step writes (valid.code_lt call listed)).trans known)]

theorem LoweredSoFar.computes_step (lowering : LoweredSoFar k f g σ newsOf) (valid : f.Valid) (listed : call ∈ f.code)
    (awaits : k call = none) (found : f.graph.inst? call = some inst) (isCall : inst.isCall)
    (writes : WritesBefore call news g h) (out : TakesOut call v h last) (computes : Computes f h σ call intrinsic news v)
    {t : Intrinsic} (lowered : Function.update k call (some intrinsic) i = some t) :
    ∃ w, Computes f last (h.forwarding call v ∘ σ) i t (Function.update newsOf call news i) w ∧
      ∀ r, f.graph.result? i = some r → h.forwarding call v (σ r) = w := by
  have old := valid.code_lt call listed
  have old' := Nat.lt_of_lt_of_le old lowering.size
  rcases known_update lowered with ⟨rfl, rfl⟩ | ⟨other, lowered⟩
  · rw [Function.update_self]
    have listed' : i ∈ g.code := lowering.mem_code.mpr (.inl ⟨listed, awaits⟩)
    have inside : ∀ j ∈ news, j ∈ h.code := fun j new => writes.puts.mem_code.mpr (.inr ⟨listed', new⟩)
    have carries := lowering.carries_step valid listed found isCall writes out inside (writes.puts.absent old')
    refine ⟨_, computes.carry carries, fun r known => ?_⟩
    exact (lowering.result_becomes valid listed awaits writes known v).trans (forwarding_self h i v).symm
  · rw [Function.update_of_ne other]
    obtain ⟨w, before, same⟩ := lowering.computes i t lowered
    have inside : ∀ j ∈ newsOf i, j ∈ h.code := fun j new =>
      writes.listed (lowering.mem_code.mpr (.inr ⟨i, t, lowered, new⟩))
    have carries := lowering.carries_step valid listed found isCall writes out inside (lowering.absent old lowered)
    refine ⟨_, (before.carry (writes.carries _)).carry carries, fun r known => ?_⟩
    exact congrArg (h.forwarding call v) (same r known)

theorem LoweredSoFar.calls_step (lowering : LoweredSoFar k f g σ newsOf) (listed : call ∈ f.code) (awaits : k call = none)
    (found : f.graph.inst? call = some inst) (isCall : inst.isCall) (writes : WritesBefore call news g h)
    (out : TakesOut call v h last) {t : Intrinsic} (lowered : Function.update k call (some intrinsic) i = some t) :
    ∃ inst, last.graph.inst? i = some inst ∧ inst.isCall := by
  have before : ∃ inst, g.graph.inst? i = some inst ∧ inst.isCall := by
    rcases known_update lowered with ⟨rfl, -⟩ | ⟨-, lowered⟩
    · exact ⟨_, by rw [lowering.kept i listed awaits, found, Option.map_some], by rwa [Inst.isCall_mapOperands]⟩
    · exact lowering.calls i t lowered
  obtain ⟨inst, found, isCall⟩ := before
  obtain ⟨s, same⟩ := out.form i
  rw [writes.puts.inst i inst found, Option.map_some] at same
  exact ⟨_, same, by rwa [Inst.isCall_mapOperands]⟩

/-- What takes the place of the result is made by the new code, or is a state of memory that the call was given. -/
theorem LoweredSoFar.sourced_step (lowering : LoweredSoFar k f g σ newsOf) (valid : f.Valid) (listed : call ∈ f.code)
    (awaits : k call = none) (usable : f.Usable True (f.argument call 0)) (writes : WritesBefore call news g h)
    (out : TakesOut call v h last) (there : h.graph.Has v) (computes : Computes f h σ call intrinsic news v) :
    Sourced (Function.update k call (some intrinsic)) last v := by
  rcases computes.source with ⟨-, j, new, made⟩ | ⟨-, same⟩
  · obtain ⟨val, found⟩ := Graph.exists_value there
    refine ⟨Graph.value?_lt ((out.value v).trans found), fun j' made' => ?_⟩
    rw [out.definition, made] at made'
    cases made'
    have listed' : call ∈ g.code := lowering.mem_code.mpr (.inl ⟨listed, awaits⟩)
    have absent := writes.puts.absent (Nat.lt_of_lt_of_le (valid.code_lt call listed) lowering.size)
    exact .inl (out.mem_code.mpr ⟨writes.puts.mem_code.mpr (.inr ⟨listed', new⟩), fun same => absent (same ▸ new)⟩)
  · rw [same]
    exact (lowering.sources _ usable).step writes out intrinsic

theorem LoweredSoFar.take_out (lowering : LoweredSoFar k f g σ newsOf) (valid : f.Valid) (listed : call ∈ f.code)
    (awaits : k call = none) (found : f.graph.inst? call = some inst) (isCall : inst.isCall)
    (usable : f.Usable True (f.argument call 0))
    (writes : WritesBefore call news g h) (out : TakesOut call v h last) (there : h.graph.Has v)
    (computes : Computes f h σ call intrinsic news v) :
    LoweredSoFar (Function.update k call (some intrinsic)) f last (h.forwarding call v ∘ σ)
      (Function.update newsOf call news) := by
  have old := valid.code_lt call listed
  have result := lowering.result_step writes old
  refine ⟨⟨?listing, ?fresh, ?value, ?kept, ?computes, ?still⟩, out.valid, ?among, ?size, ?result, ?calls, ?settled,
    ?sources⟩
  case listing => exact out.listing.trans (lowering.listing_step old awaits writes intrinsic)
  case fresh =>
    intro i t lowered j new
    rcases known_update lowered with ⟨rfl, -⟩ | ⟨other, lowered⟩
    · rw [Function.update_self] at new
      exact Nat.le_trans lowering.size (writes.puts.fresh j new)
    · rw [Function.update_of_ne other] at new
      exact lowering.fresh i t lowered j new
  case value => exact fun w val found => (out.value w).trans (writes.puts.value w val (lowering.value w val found))
  case kept =>
    intro i inside awaits'
    have other : i ≠ call := fun same => by simp [same] at awaits'
    rw [Function.update_of_ne other] at awaits'
    have inside' : i ∈ g.code := lowering.mem_code.mpr (.inl ⟨inside, awaits'⟩)
    obtain ⟨inst', found'⟩ := exists_inst lowering.valid inside'
    rw [out.inst i (writes.listed inside'), writes.puts.inst i inst' found', ← found', lowering.kept i inside awaits',
      Option.map_map]
    exact congrArg (fun map => Option.map map _) (funext fun inst => Inst.mapOperands_mapOperands σ _ inst)
  case computes =>
    exact fun i t lowered => lowering.computes_step valid listed awaits found isCall writes out computes lowered
  -- A value that is no lowered result was forwarded by no earlier step, nor is it by this one.
  case still =>
    intro w none_
    have other : h.graph.result? call ≠ some w := result ▸ none_ call intrinsic (Function.update_self ..)
    have alone : σ w = w := by
      refine lowering.still w fun i t lowered => none_ i t ?_
      rwa [Function.update_of_ne fun same => by cases lowered.symm.trans (same ▸ awaits)]
    rw [Function.comp_apply, alone, forwarding_eq_self other]
  case among =>
    intro i t lowered
    rcases known_update lowered with ⟨rfl, -⟩ | ⟨-, lowered⟩
    · exact listed
    · exact lowering.among i t lowered
  case size => exact out.size ▸ Nat.le_trans lowering.size writes.puts.size
  case result => exact fun i inside => (out.result i).trans (lowering.result_step writes inside)
  case calls => exact fun i t lowered => lowering.calls_step listed awaits found isCall writes out lowered
  case settled =>
    intro w
    simp only [Function.comp_apply]
    by_cases here : h.graph.result? call = some (σ w)
    · have forwarded : h.forwarding call v (σ w) = v := if_pos here
      rw [forwarded, lowering.settled_source valid writes computes, forwarding_self]
    · rw [forwarding_eq_self here, lowering.settled, forwarding_eq_self here]
  case sources =>
    intro w usable'
    rw [Function.comp_apply]
    by_cases here : h.graph.result? call = some (σ w)
    · rw [forwarding, if_pos here]
      exact lowering.sourced_step valid listed awaits usable writes out there computes
    · rw [forwarding_eq_self here]
      exact (lowering.sources w usable').step writes out intrinsic

theorem LoweredSoFar.step (lowering : LoweredSoFar k f g σ newsOf) (valid : f.Valid) (defined : f.OperandsDefined)
    (listed : call ∈ f.code) (awaits : k call = none) {callee : FuncId} {args : List ValueId} {ret : Ty}
    (found : f.graph.inst? call = some (.call callee args ret)) (lowered : intrinsic.isLowered)
    (enough : intrinsic.arity ≤ args.length) :
    ∃ σ' newsOf', LoweredSoFar (Function.update k call (some intrinsic)) f (g.lowerCall call intrinsic).1 σ' newsOf' := by
  have old := valid.code_lt call listed
  have old' := Nat.lt_of_lt_of_le old lowering.size
  have listed' : call ∈ g.code := lowering.mem_code.mpr (.inl ⟨listed, awaits⟩)
  have found' : g.graph.inst? call = some (.call callee (args.map σ) ret) := by
    rw [lowering.kept call listed awaits, found]
    rfl
  have below (n : Nat) (less : n < intrinsic.arity) : n < args.length := Nat.lt_of_lt_of_le less enough
  have operands : f.graph.operands call = args := by rw [Graph.operands, found]; rfl
  have operands' : g.graph.operands call = args.map σ := by rw [Graph.operands, found']; rfl
  have arguments (n : Nat) (less : n < intrinsic.arity) : g.argument call n = σ (f.argument call n) := by
    simp [argument, operands, operands', List.getD_eq_getElem?_getD, List.getElem?_eq_getElem (below n less)]
  -- Arguments of the call were defined by listed code, which is where lowering looks for a pointer.
  have usable (n : Nat) (less : n < intrinsic.arity) : f.Usable True (f.argument call n) := by
    have operand : f.argument call n ∈ f.graph.operands call := argument_mem (operands ▸ below n less)
    exact ⟨valid.operand_lt listed operand, fun _ => defined call listed _ operand⟩
  have result := lowering.result call old
  obtain ⟨h, news, v, same, writes, computes, there⟩ := lowerCall_computes lowering.valid listed' lowered
    (by simpa [operands'] using enough) fun less p cast => by
      rw [arguments 1 less] at cast
      obtain ⟨i, int, definition, made⟩ := Graph.castOf?_eq_some.mp cast
      obtain ⟨ty, value⟩ := Graph.definition?_eq_some.mp definition
      obtain ⟨inside, -⟩ := lowering.cast_source valid (usable 1 less) ⟨value, made⟩
      exact lowering.valid.operand_lt inside (Graph.mem_operands.mpr ⟨_, made, List.mem_singleton_self p⟩)
  have out := takesOut writes.valid there call
  have starts := lowering.start valid arguments usable result computes
  rw [same]
  exact ⟨_, _, lowering.take_out valid listed awaits found rfl (usable 0 intrinsic.arity_pos) writes out there starts⟩

/-! ### All calls -/

/-- A listed call that passes all arguments of an intrinsic that is lowered. -/
def Lowerable (f : Func) (i : InstId) (intrinsic : Intrinsic) : Prop :=
  i ∈ f.code ∧ intrinsic.isLowered ∧
    ∃ callee args ret, f.graph.inst? i = some (.call callee args ret) ∧ intrinsic.arity ≤ args.length

theorem LoweredSoFar.run (lowering : LoweredSoFar k f g σ newsOf) (valid : f.Valid) (defined : f.OperandsDefined)
    (calls : List LoweredCall) (each : ∀ c ∈ calls, f.Lowerable c.inst c.intrinsic ∧ k c.inst = none)
    (once : (calls.map LoweredCall.inst).Nodup) :
    ∃ k' σ' newsOf', LoweredSoFar k' f (calls.foldl (fun f c => (f.lowerCall c.inst c.intrinsic).1) g) σ' newsOf' ∧
      ∀ i t, k' i = some t ↔ k i = some t ∨ ∃ c ∈ calls, c.inst = i ∧ c.intrinsic = t := by
  induction calls generalizing k g σ newsOf with
  | nil => exact ⟨k, σ, newsOf, lowering, by simp⟩
  | cons c calls ih =>
    obtain ⟨⟨⟨listed, lowered, callee, args, ret, found, enough⟩, awaits⟩, rest⟩ := List.forall_mem_cons.mp each
    obtain ⟨absent, others⟩ := List.nodup_cons.mp once
    obtain ⟨σ₁, newsOf₁, first⟩ := lowering.step valid defined listed awaits found lowered enough
    have other (d : LoweredCall) (member : d ∈ calls) : d.inst ≠ c.inst := fun same =>
      absent (same ▸ List.mem_map_of_mem member)
    obtain ⟨k', σ', newsOf', all, known⟩ := ih first
      (fun d member => ⟨(rest d member).1, (Function.update_of_ne (other d member) _ _).trans (rest d member).2⟩) others
    refine ⟨k', σ', newsOf', all, fun i t => (known i t).trans ?_⟩
    -- Calls are lowered once, so what is known of the first is not asked again.
    by_cases here : i = c.inst
    · rw [here, Function.update_self, awaits]
      simp
    · rw [Function.update_of_ne here]
      simp [Ne.symm here]

/-! ### What takes the place of results -/

/-- The result of a write or a barrier that was lowered, and the state of memory that it was given. -/
def Forwards (k : InstId → Option Intrinsic) (f : Func) (v w : ValueId) : Prop :=
  ∃ i t, k i = some t ∧ t.isLoad = false ∧ f.graph.result? i = some v ∧ f.argument i 0 = w

/-- The result of a call that was lowered. -/
def Replaced (k : InstId → Option Intrinsic) (f : Func) (v : ValueId) : Prop :=
  ∃ i t, k i = some t ∧ f.graph.result? i = some v

theorem LoweredSoFar.not_replaced_of_new (lowering : LoweredSoFar k f g σ newsOf) (valid : f.Valid) {c : InstId}
    {t : Intrinsic} (known : k c = some t) (new : i ∈ newsOf c) (made : g.graph.definition? v = some i) : ¬Replaced k f v := by
  rintro ⟨j, t', known', result⟩
  have old := valid.code_lt j (lowering.among j t' known')
  have same := (lowering.valid.graph.result_iff j v).mp ((lowering.result j old).trans result)
  cases same.symm.trans made
  exact Nat.not_lt_of_le (lowering.fresh c t known i new) old

theorem LoweredSoFar.still_of_not_replaced (lowering : LoweredSoFar k f g σ newsOf) (other : ¬Replaced k f v) : σ v = v :=
  lowering.still v fun i t known result => other ⟨i, t, known, result⟩

/-- If no state of memory comes back to where it started, no value becomes the result of a call that was lowered. -/
theorem LoweredSoFar.not_replaced (lowering : LoweredSoFar k f g σ newsOf) (valid : f.Valid)
    (acyclic : ∀ v, ¬Relation.TransGen (Forwards k f) v v) (v : ValueId) : ¬Replaced k f (σ v) := by
  -- All calls are of the function, so only its values need to be followed.
  let Reaches (a b : Fin f.graph.values.size) : Prop := Relation.TransGen (Forwards k f) ⟨b⟩ ⟨a⟩
  have wellFounded : WellFounded Reaches := by
    have : IsTrans _ Reaches := ⟨fun _ _ _ first second => second.trans first⟩
    have : Std.Irrefl Reaches := ⟨fun a => acyclic ⟨a⟩⟩
    exact Finite.wellFounded_of_trans_of_irrefl Reaches
  have outside (w : ValueId) (absent : ¬w.index < f.graph.values.size) : ¬Replaced k f w := fun ⟨i, t, _, result⟩ =>
    absent (valid.graph.result_lt result).2
  have inside (n : Fin f.graph.values.size) : ¬Replaced k f (σ ⟨n⟩) := by
    induction n using wellFounded.induction with
    | _ n ih =>
      by_cases replaced : Replaced k f ⟨n⟩
      · obtain ⟨i, t, known, result⟩ := replaced
        obtain ⟨u, computes, becomes⟩ := lowering.computes i t known
        rw [becomes _ result]
        rcases computes.source with ⟨-, j, new, made⟩ | ⟨noLoad, rfl⟩
        · exact lowering.not_replaced_of_new valid known new made
        · by_cases there : (f.argument i 0).index < f.graph.values.size
          · exact ih ⟨_, there⟩ (.single ⟨i, t, known, noLoad, result, rfl⟩)
          · have other := outside _ there
            rwa [lowering.still_of_not_replaced other]
      · rwa [lowering.still_of_not_replaced replaced]
  by_cases there : v.index < f.graph.values.size
  · exact inside ⟨v.index, there⟩
  · have other := outside v there
    rwa [lowering.still_of_not_replaced other]

theorem LoweredSoFar.unused (lowering : LoweredSoFar k f g σ newsOf) (valid : f.Valid)
    (acyclic : ∀ v, ¬Relation.TransGen (Forwards k f) v v) (listed : i ∈ g.code) (operand : v ∈ g.graph.operands i) :
    ¬Replaced k f v := by
  obtain ⟨inst, found, operand⟩ := Graph.mem_operands.mp operand
  rcases lowering.mem_code.mp listed with ⟨old, awaits⟩ | ⟨c, t, known, new⟩
  · rw [lowering.kept i old awaits] at found
    obtain ⟨before, -, rfl⟩ := Option.map_eq_some_iff.mp found
    rw [Inst.operands_mapOperands] at operand
    obtain ⟨w, -, rfl⟩ := List.mem_map.mp operand
    exact lowering.not_replaced valid acyclic w
  · obtain ⟨u, computes, -⟩ := lowering.computes c t known
    obtain ⟨inst', found', -, uses⟩ := computes.uses i new
    cases found.symm.trans found'
    rcases uses v operand with ⟨w, rfl⟩ | ⟨j, new', made⟩
    · exact lowering.not_replaced valid acyclic w
    · exact lowering.not_replaced_of_new valid known new' made

/-- A value becomes what the states of memory behind it become. -/
theorem Lowered.forwards (lowered : Lowered k f g σ newsOf) (leads : Relation.ReflTransGen (Forwards k f) v w) :
    σ v = σ w := by
  induction leads with
  | refl => rfl
  | tail _ last ih =>
    obtain ⟨i, t, known, noLoad, result, rfl⟩ := last
    obtain ⟨u, computes, becomes⟩ := lowered.computes i t known
    rcases computes.source with ⟨load, -⟩ | ⟨-, rfl⟩
    · cases noLoad.symm.trans load
    · exact ih.trans (becomes _ result)

end Func

end VarRecovery
