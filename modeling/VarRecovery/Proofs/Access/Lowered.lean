import VarRecovery.Access.Lowering
import VarRecovery.Proofs.Code.Replacement
import VarRecovery.Proofs.Code.Tracking

/-!
What is written in the place of a call that is lowered: a load or a store through a pointer that is cast from the
address, a cast of an 80-bit float where the call has another type, and nothing for a barrier. The result of the call
becomes what was loaded or the state of memory that the call was given.
-/

set_option autoImplicit false

namespace VarRecovery

theorem Intrinsic.arity_pos (intrinsic : Intrinsic) : 0 < intrinsic.arity := by
  cases intrinsic <;> exact Nat.succ_pos _

namespace Func

variable {f g h : Func} {call i : InstId} {news others casts : List InstId} {inst : Inst} {address ptr v : ValueId}
  {ty : Ty} {width : AccessWidth} {intrinsic : Intrinsic}

/-- Code was written in front of a call, and all is still right. -/
structure WritesBefore (call : InstId) (news : List InstId) (f g : Func) : Prop where
  puts : Puts call news f g
  valid : g.Valid

theorem WritesBefore.refl (valid : f.Valid) (call : InstId) : WritesBefore call [] f f :=
  ⟨.refl valid.graph call, valid⟩

theorem WritesBefore.trans (old : call.index < f.graph.insts.size) (first : WritesBefore call news f g)
    (second : WritesBefore call others g h) : WritesBefore call (news ++ others) f h :=
  ⟨first.puts.trans old second.puts, second.valid⟩

theorem Puts.mem_code (puts : Puts call news f g) : i ∈ g.code ↔ i ∈ f.code ∨ call ∈ f.code ∧ i ∈ news := by
  rw [code, puts.listing, Listing.put, Listing.allInsts_updateAll, List.mem_flatMap]
  constructor
  · rintro ⟨j, listed, here⟩
    split at here
    next same =>
      rcases List.mem_append.mp here with new | old
      · exact .inr ⟨same ▸ listed, new⟩
      · exact .inl (List.mem_singleton.mp old ▸ listed)
    next => exact .inl (List.mem_singleton.mp here ▸ listed)
  · rintro (listed | ⟨listed, new⟩)
    · refine ⟨i, listed, ?_⟩
      split
      next => exact List.mem_append_right _ (List.mem_singleton_self i)
      next => exact List.mem_singleton_self i
    · exact ⟨call, listed, by rw [if_pos rfl]; exact List.mem_append_left _ new⟩

theorem WritesBefore.listed (writes : WritesBefore call news f g) (listed : i ∈ f.code) : i ∈ g.code :=
  writes.puts.mem_code.mpr (.inl listed)

theorem Puts.value_lt (puts : Puts call news f g) (inside : v.index < f.graph.values.size) :
    v.index < g.graph.values.size := by
  obtain ⟨val, found⟩ := Graph.exists_value inside
  exact Graph.value?_lt (puts.value v val found)

theorem Puts.ty_eq (puts : Puts call news f g) (inside : v.index < f.graph.values.size) :
    g.graph.ty v = f.graph.ty v := by
  obtain ⟨val, found⟩ := Graph.exists_value inside
  rw [Graph.ty, puts.value v val found, Graph.ty, found]

theorem WritesBefore.argument (writes : WritesBefore call news f g) (valid : f.Valid) (listed : call ∈ f.code)
    (n : Nat) : g.argument call n = f.argument call n := by
  obtain ⟨inst, found⟩ := exists_inst valid listed
  rw [Func.argument, Func.argument, Graph.operands, Graph.operands, writes.puts.inst call inst found, found]

theorem WritesBefore.result (writes : WritesBefore call news f g) (valid : f.Valid) (listed : call ∈ f.code) :
    g.graph.result? call = f.graph.result? call :=
  writes.puts.result call (valid.code_lt call listed)

theorem writesBefore_insert (valid : f.Valid) (listed : call ∈ f.code) (inst : Inst) (ty : Ty)
    (operands : ∀ v ∈ inst.operands, v.index < f.graph.values.size) :
    ∃ i, WritesBefore call [i] f (f.insert inst ty (.before call)).1 ∧
      (f.insert inst ty (.before call)).1.graph.Defines (f.insert inst ty (.before call)).2 i inst ty := by
  obtain ⟨puts, defines⟩ := puts_insert valid.graph call inst ty
  have perm := Listing.perm_insertBefore (i := f.graph.nextInst) valid.code_nodup listed
  refine ⟨f.graph.nextInst, ⟨puts, valid.insert operands (Listing.blockIds_updateAll ..) perm⟩, ?_⟩
  rwa [value_insert]

theorem writesBefore_insertInst (valid : f.Valid) (listed : call ∈ f.code) (inst : Inst)
    (operands : ∀ v ∈ inst.operands, v.index < f.graph.values.size) :
    ∃ i, WritesBefore call [i] f (f.insertInst inst (.before call)).1 ∧
      (f.insertInst inst (.before call)).1.graph.inst? i = some inst := by
  have perm := Listing.perm_insertBefore (i := f.graph.nextInst) valid.code_nodup listed
  refine ⟨f.graph.nextInst, ⟨puts_insertInst valid.graph call inst,
    valid.insertInst operands (Listing.blockIds_updateAll ..) perm⟩, ?_⟩
  exact (Graph.inst?_addInst f.graph inst _).trans (if_pos rfl)

/-! ### What is written -/

/-- By its type, `p` holds for a value, or for one that became the same value by `σ`. -/
def TypedSo (g : Func) (σ : ValueId → ValueId) (v : ValueId) (p : Ty → Prop) : Prop :=
  ∃ w, g.graph.Has w ∧ σ w = σ v ∧ p (g.graph.ty w)

/-- A pointer to an access of type `ty` at an address of `f`, and the casts that make it in `g`, where values have
become others by `σ`. What the address was cast from is the pointer if it has the type. -/
inductive Points (f g : Func) (σ : ValueId → ValueId) (address : ValueId) (ty : Ty) : ValueId → List InstId → Prop
  | same {p : ValueId} {i : InstId} {int int' : Ty} (made : f.graph.Defines (σ address) i (.cast .ptrToInt p int) int')
      (typed : g.TypedSo σ p (· = .ptr ty)) : Points f g σ address ty (σ p) []
  | bitcast {p v : ValueId} {i j : InstId} {int int' : Ty}
      (made : f.graph.Defines (σ address) i (.cast .ptrToInt p int) int')
      (typed : g.TypedSo σ p (· ≠ .ptr ty))
      (cast : g.graph.Defines v j (.cast .bitcast (σ p) (.ptr ty)) (.ptr ty)) : Points f g σ address ty v [j]
  | intToPtr {v : ValueId} {j : InstId}
      (cast : g.graph.Defines v j (.cast .intToPtr (σ address) (.ptr ty)) (.ptr ty)) : Points f g σ address ty v [j]

/-- What computes a call of `f` in `g`, where values have become others by `σ`, and what its result becomes. -/
inductive Computes (f g : Func) (σ : ValueId → ValueId) (call : InstId) : Intrinsic → List InstId → ValueId → Prop
  | load {width : AccessWidth} {ptr v : ValueId} {casts : List InstId} {i : InstId}
      (points : Points f g σ (f.argument call 1) width.ty ptr casts)
      (load : g.graph.Defines v i (.load ptr width.ty) width.ty)
      (plain : width = .f80 → ∀ r, f.graph.result? call = some r → f.graph.ty r = .f80) :
      Computes f g σ call (.readMemory width) (casts ++ [i]) v
  | cutLoad {ptr long v r : ValueId} {casts : List InstId} {i j : InstId}
      (points : Points f g σ (f.argument call 1) .f80 ptr casts) (load : g.graph.Defines long i (.load ptr .f80) .f80)
      (result : f.graph.result? call = some r) (other : f.graph.ty r ≠ .f80)
      (cut : g.graph.Defines v j (.cast .fpTrunc long (f.graph.ty r)) (f.graph.ty r)) :
      Computes f g σ call (.readMemory .f80) (casts ++ [i, j]) v
  | store {width : AccessWidth} {ptr : ValueId} {casts : List InstId} {i : InstId}
      (points : Points f g σ (f.argument call 1) width.ty ptr casts)
      (plain : width = .f80 → g.TypedSo σ (f.argument call 2) (· = .f80))
      (store : g.graph.inst? i = some (.store ptr (σ (f.argument call 2)))) :
      Computes f g σ call (.writeMemory width) (casts ++ [i]) (σ (f.argument call 0))
  | longStore {ptr long : ValueId} {casts : List InstId} {i j : InstId}
      (points : Points f g σ (f.argument call 1) .f80 ptr casts)
      (other : g.TypedSo σ (f.argument call 2) (· ≠ .f80))
      (extend : g.graph.Defines long i (.cast .fpExt (σ (f.argument call 2)) .f80) .f80)
      (store : g.graph.inst? j = some (.store ptr long)) :
      Computes f g σ call (.writeMemory .f80) (casts ++ [i, j]) (σ (f.argument call 0))
  | barrier {kind : BarrierKind} : Computes f g σ call (.barrier kind) [] (σ (f.argument call 0))

/-- Written code stays, while in its operands values become others by `s`. Only results of calls do, so the values that
were written do not. -/
structure Carries (f g h : Func) (s : ValueId → ValueId) (news : List InstId) : Prop where
  value : ∀ v val, g.graph.value? v = some val → h.graph.value? v = some val
  inst : ∀ i ∈ news, ∀ inst, g.graph.inst? i = some inst → h.graph.inst? i = some (inst.mapOperands s)
  written : ∀ i ∈ news, ∀ v, g.graph.definition? v = some i → s v = v
  cast : ∀ v i op p int ty, f.graph.Defines v i (.cast op p int) ty → s v = v

variable {σ s : ValueId → ValueId}

theorem Carries.has (carries : Carries f g h s news) (there : g.graph.Has v) : h.graph.Has v := by
  obtain ⟨val, found⟩ := Graph.exists_value there
  exact Graph.value?_lt (carries.value v val found)

theorem Carries.ty_eq (carries : Carries f g h s news) (there : g.graph.Has v) : h.graph.ty v = g.graph.ty v := by
  obtain ⟨val, found⟩ := Graph.exists_value there
  rw [Graph.ty, carries.value v val found, Graph.ty, found]

theorem Carries.typedSo {p : Ty → Prop} (carries : Carries f g h s news) (typed : g.TypedSo σ v p) :
    h.TypedSo (s ∘ σ) v p := by
  obtain ⟨w, there, same, holds⟩ := typed
  exact ⟨w, carries.has there, congrArg s same, by rwa [carries.ty_eq there]⟩

theorem Carries.defines (carries : Carries f g h s news) (new : i ∈ news) (defines : g.graph.Defines v i inst ty) :
    h.graph.Defines v i (inst.mapOperands s) ty ∧ s v = v :=
  ⟨⟨carries.value _ _ defines.value, carries.inst i new _ defines.inst⟩, carries.written i new v defines.definition?⟩

theorem Points.carry (points : Points f g σ address ty ptr casts) (carries : Carries f g h s casts) :
    Points f h (s ∘ σ) address ty (s ptr) casts := by
  cases points with
  | @same p i int int' made found =>
    have made : f.graph.Defines (s (σ address)) i (.cast .ptrToInt p int) int' := by rwa [carries.cast _ _ _ _ _ _ made]
    exact .same made (carries.typedSo found)
  | @bitcast p v i j int int' made found cast =>
    have made : f.graph.Defines (s (σ address)) i (.cast .ptrToInt p int) int' := by rwa [carries.cast _ _ _ _ _ _ made]
    obtain ⟨cast, still⟩ := carries.defines (List.mem_singleton_self j) cast
    rw [still]
    exact .bitcast made (carries.typedSo found) cast
  | @intToPtr v j cast =>
    obtain ⟨cast, still⟩ := carries.defines (List.mem_singleton_self j) cast
    rw [still]
    exact .intToPtr cast

theorem Carries.left (carries : Carries f g h s (news ++ others)) : Carries f g h s news :=
  ⟨carries.value, fun i new => carries.inst i (List.mem_append_left _ new),
    fun i new => carries.written i (List.mem_append_left _ new), carries.cast⟩

theorem Computes.carry (computes : Computes f g σ call intrinsic news v) (carries : Carries f g h s news) :
    Computes f h (s ∘ σ) call intrinsic news (s v) := by
  cases computes with
  | @load width ptr v casts i points load plain =>
    obtain ⟨load, still⟩ := carries.defines (by simp) load
    rw [still]
    exact .load (points.carry carries.left) load plain
  | @cutLoad ptr long v r casts i j points load result other cut =>
    obtain ⟨load, same⟩ := carries.defines (by simp) load
    obtain ⟨cut, still⟩ := carries.defines (by simp) cut
    rw [still]
    simp only [Inst.mapOperands, same] at load cut
    exact .cutLoad (points.carry carries.left) load result other cut
  | @store width ptr casts i points plain store =>
    have store := carries.inst i (by simp) _ store
    exact .store (points.carry carries.left) (fun long => carries.typedSo (plain long)) store
  | @longStore ptr long casts i j points other extend store =>
    obtain ⟨extend, same⟩ := carries.defines (by simp) extend
    have store := carries.inst j (by simp) _ store
    simp only [Inst.mapOperands, same] at extend store
    exact .longStore (points.carry carries.left) (carries.typedSo other) extend store
  | barrier => exact .barrier

/-- A value that code of `news` uses became what it is by `σ`, if such code does not make it. -/
def Known (g : Func) (σ : ValueId → ValueId) (news : List InstId) (v : ValueId) : Prop :=
  (∃ w, v = σ w) ∨ ∃ i ∈ news, g.graph.definition? v = some i

theorem Known.mono (known : g.Known σ news v) (more : ∀ i ∈ news, i ∈ others) : g.Known σ others v :=
  known.imp_right fun ⟨i, new, made⟩ => ⟨i, more i new, made⟩

theorem known_of_defines (defines : g.graph.Defines v i inst ty) (new : i ∈ news) : g.Known σ news v :=
  .inr ⟨i, new, defines.definition?⟩

/-- An instruction of `news` that is no cast of a pointer to an integer uses what is known. -/
def Uses (g : Func) (σ : ValueId → ValueId) (news : List InstId) (i : InstId) : Prop :=
  ∃ inst, g.graph.inst? i = some inst ∧ (∀ p ty, inst ≠ .cast .ptrToInt p ty) ∧ ∀ v ∈ inst.operands, g.Known σ news v

theorem Points.known (points : Points f g σ address ty ptr casts) :
    g.Known σ casts ptr ∧ ∀ i ∈ casts, g.Uses σ casts i := by
  cases points with
  | same => exact ⟨.inl ⟨_, rfl⟩, nofun⟩
  | @bitcast p v i j int int' made typed cast =>
    refine ⟨known_of_defines cast (List.mem_singleton_self j), List.forall_mem_singleton.mpr ?_⟩
    exact ⟨_, cast.inst, by simp, List.forall_mem_singleton.mpr (.inl ⟨p, rfl⟩)⟩
  | @intToPtr v j cast =>
    refine ⟨known_of_defines cast (List.mem_singleton_self j), List.forall_mem_singleton.mpr ?_⟩
    exact ⟨_, cast.inst, by simp, List.forall_mem_singleton.mpr (.inl ⟨_, rfl⟩)⟩

theorem Computes.uses (computes : Computes f g σ call intrinsic news v) : ∀ i ∈ news, g.Uses σ news i := by
  have pointed {ptr : ValueId} {casts rest : List InstId} {ty : Ty}
      (points : Points f g σ (f.argument call 1) ty ptr casts) :
      g.Known σ (casts ++ rest) ptr ∧ ∀ i ∈ casts, g.Uses σ (casts ++ rest) i := by
    have more : ∀ i ∈ casts, i ∈ casts ++ rest := fun i => List.mem_append_left rest
    refine ⟨points.known.1.mono more, fun i new => ?_⟩
    obtain ⟨inst, found, plain, known⟩ := points.known.2 i new
    exact ⟨inst, found, plain, fun v operand => (known v operand).mono more⟩
  cases computes with
  | load points load plain =>
    refine List.forall_mem_append.mpr ⟨(pointed points).2, List.forall_mem_singleton.mpr ?_⟩
    exact ⟨_, load.inst, by simp, List.forall_mem_singleton.mpr (pointed points).1⟩
  | cutLoad points load result other cut =>
    refine List.forall_mem_append.mpr ⟨(pointed points).2,
      List.forall_mem_cons.mpr ⟨?_, List.forall_mem_singleton.mpr ?_⟩⟩
    · exact ⟨_, load.inst, by simp, List.forall_mem_singleton.mpr (pointed points).1⟩
    · exact ⟨_, cut.inst, by simp, List.forall_mem_singleton.mpr (known_of_defines load (by simp))⟩
  | store points plain store =>
    refine List.forall_mem_append.mpr ⟨(pointed points).2, List.forall_mem_singleton.mpr ?_⟩
    exact ⟨_, store, by simp,
      List.forall_mem_cons.mpr ⟨(pointed points).1, List.forall_mem_singleton.mpr (.inl ⟨_, rfl⟩)⟩⟩
  | longStore points other extend store =>
    refine List.forall_mem_append.mpr ⟨(pointed points).2,
      List.forall_mem_cons.mpr ⟨?_, List.forall_mem_singleton.mpr ?_⟩⟩
    · exact ⟨_, extend.inst, by simp, List.forall_mem_singleton.mpr (.inl ⟨_, rfl⟩)⟩
    · refine ⟨_, store, by simp, List.forall_mem_cons.mpr ⟨(pointed points).1, List.forall_mem_singleton.mpr ?_⟩⟩
      exact known_of_defines extend (by simp)
  | barrier => exact nofun

/-- The result of a read becomes what its code makes, and that of any other call its state of memory. -/
theorem Computes.source (computes : Computes f g σ call intrinsic news v) :
    (intrinsic.isLoad ∧ ∃ i ∈ news, g.graph.definition? v = some i) ∨
      intrinsic.isLoad = false ∧ v = σ (f.argument call 0) := by
  cases computes with
  | @load width ptr v casts i points load plain => exact .inl ⟨rfl, i, by simp, load.definition?⟩
  | @cutLoad ptr long v r casts i j points load result other cut => exact .inl ⟨rfl, j, by simp, cut.definition?⟩
  | store | longStore | barrier => exact .inr ⟨rfl, rfl⟩

/-! ### Lowering a call -/

theorem WritesBefore.carries (writes : WritesBefore i others g h) (news : List InstId) : Carries f g h id news :=
  ⟨writes.puts.value, fun j _ inst found => (inst.mapOperands_id ▸ writes.puts.inst j inst found :), fun _ _ _ _ => rfl,
    fun _ _ _ _ _ _ _ => rfl⟩

theorem accessPointer_points (valid : f.Valid) (listed : call ∈ f.code) (there : f.graph.Has address)
    (casts : ∀ p, f.graph.castOf? address = some (.ptrToInt, p) → f.graph.Has p) (ty : Ty) :
    ∃ news, WritesBefore call news f (f.accessPointer call address ty).1 ∧
      Points f (f.accessPointer call address ty).1 id address ty (f.accessPointer call address ty).2.1 news ∧
      (f.accessPointer call address ty).1.graph.Has (f.accessPointer call address ty).2.1 := by
  unfold accessPointer
  split
  next p cast =>
    have below := casts p cast
    obtain ⟨i, int, definition, made⟩ := Graph.castOf?_eq_some.mp cast
    obtain ⟨int', value⟩ := Graph.definition?_eq_some.mp definition
    split
    next typed => exact ⟨[], .refl valid call, .same ⟨value, made⟩ ⟨p, below, rfl, typed⟩, below⟩
    next differs =>
      obtain ⟨j, writes, cast⟩ := writesBefore_insert valid listed (.cast .bitcast p (.ptr ty)) (.ptr ty)
        (List.forall_mem_singleton.mpr below)
      refine ⟨[j], writes, .bitcast ⟨value, made⟩ ⟨p, writes.puts.value_lt below, rfl, ?_⟩ cast,
        Graph.value?_lt cast.value⟩
      rwa [writes.puts.ty_eq below]
  next =>
    obtain ⟨j, writes, cast⟩ := writesBefore_insert valid listed (.cast .intToPtr address (.ptr ty)) (.ptr ty)
      (List.forall_mem_singleton.mpr there)
    exact ⟨[j], writes, .intToPtr cast, Graph.value?_lt cast.value⟩

theorem argument_mem {n : Nat} (enough : n < (f.graph.operands call).length) :
    f.argument call n ∈ f.graph.operands call := by
  rw [argument, List.getD_eq_getElem?_getD, List.getElem?_eq_getElem enough]
  exact List.getElem_mem enough

theorem lowerToLoad_computes (valid : f.Valid) (listed : call ∈ f.code) (there : f.graph.Has (f.argument call 1))
    (casts : ∀ p, f.graph.castOf? (f.argument call 1) = some (.ptrToInt, p) → f.graph.Has p) (width : AccessWidth) :
    ∃ g news v, (f.lowerToLoad call width).1 = g.forwardResult call v ∧ WritesBefore call news f g ∧
      Computes f g id call (.readMemory width) news v ∧ g.graph.Has v := by
  have old := valid.code_lt call listed
  unfold lowerToLoad
  obtain ⟨casts, pointed, points, pointer⟩ := accessPointer_points valid listed there casts width.ty
  generalize f.accessPointer call (f.argument call 1) width.ty = access at pointed points pointer
  obtain ⟨f₁, ptr, source⟩ := access
  obtain ⟨i, read, load⟩ := writesBefore_insert pointed.valid (pointed.listed listed) (.load ptr width.ty) width.ty
    (List.forall_mem_singleton.mpr pointer)
  dsimp only
  generalize f₁.insert (.load ptr width.ty) width.ty (.before call) = loaded at read load
  obtain ⟨f₂, long⟩ := loaded
  -- What was written for the pointer is carried over each instruction that is written behind it.
  have points₂ := points.carry (read.carries casts)
  have writes := pointed.trans old read
  have same := writes.result valid listed
  have known := Graph.value?_lt load.value
  dsimp only
  split
  next absent =>
    refine ⟨f₂, casts ++ [i], long, ?_, writes, .load points₂ load fun _ r result => ?_, known⟩
    · rw [forwardResult, absent]
    · cases (same.trans result).symm.trans absent
  next r result =>
    have result' := same.symm.trans result
    have below : f.graph.Has r := (valid.graph.result_lt result').2
    have ty_eq := writes.puts.ty_eq below
    split
    next differs =>
      obtain ⟨rfl, other⟩ := differs
      obtain ⟨j, cuts, cut⟩ := writesBefore_insert writes.valid (writes.listed listed)
        (.cast .fpTrunc long (f₂.graph.ty r)) (f₂.graph.ty r) (List.forall_mem_singleton.mpr known)
      have points₃ := points₂.carry (cuts.carries casts)
      have load₃ := cuts.puts.defines load
      have all := List.append_assoc casts [i] [j] ▸ writes.trans old cuts
      rw [ty_eq] at other
      refine ⟨_, casts ++ [i, j], _, rfl, all, ?_, Graph.value?_lt cut.value⟩
      exact .cutLoad points₃ load₃ result' other (ty_eq ▸ cut)
    next alike =>
      refine ⟨f₂, casts ++ [i], long, rfl, writes, .load points₂ load fun wide r' known' => ?_, known⟩
      cases result'.symm.trans known'
      rw [← ty_eq]
      exact not_not.mp fun other => alike ⟨wide, other⟩

theorem lowerToStore_computes (valid : f.Valid) (listed : call ∈ f.code)
    (there : ∀ n < 3, f.graph.Has (f.argument call n))
    (casts : ∀ p, f.graph.castOf? (f.argument call 1) = some (.ptrToInt, p) → f.graph.Has p) (width : AccessWidth) :
    ∃ g news v, (f.lowerToStore call width).1 = g.forwardResult call v ∧ WritesBefore call news f g ∧
      Computes f g id call (.writeMemory width) news v ∧ g.graph.Has v := by
  have old := valid.code_lt call listed
  unfold lowerToStore
  obtain ⟨casts, pointed, points, pointer⟩ := accessPointer_points valid listed (there 1 (by decide)) casts width.ty
  generalize f.accessPointer call (f.argument call 1) width.ty = access at pointed points pointer
  obtain ⟨f₁, ptr, source⟩ := access
  have value : f₁.graph.Has (f.argument call 2) := pointed.puts.value_lt (there 2 (by decide))
  -- The store comes last in both cases, behind the pointer and what may be extended.
  have whole {f₂ : Func} {news : List InstId} (writes : WritesBefore call news f f₂) (stored : ValueId)
      (pointer : f₂.graph.Has ptr) (known : f₂.graph.Has stored) : ∃ j, WritesBefore call (news ++ [j]) f
        (f₂.insertInst (.store ptr stored) (.before call)).1 ∧
      WritesBefore call [j] f₂ (f₂.insertInst (.store ptr stored) (.before call)).1 ∧
      (f₂.insertInst (.store ptr stored) (.before call)).1.graph.inst? j = some (.store ptr stored) ∧
      (f₂.insertInst (.store ptr stored) (.before call)).1.argument call 0 = f.argument call 0 ∧
      (f₂.insertInst (.store ptr stored) (.before call)).1.graph.Has (f.argument call 0) := by
    obtain ⟨j, stores, store⟩ := writesBefore_insertInst writes.valid (writes.listed listed) (.store ptr stored)
      (List.forall_mem_cons.mpr ⟨pointer, List.forall_mem_singleton.mpr known⟩)
    have all := writes.trans old stores
    exact ⟨j, all, stores, store, all.argument valid listed 0, all.puts.value_lt (there 0 (by decide))⟩
  dsimp only
  rw [pointed.argument valid listed]
  split
  next differs =>
    obtain ⟨rfl, other⟩ := differs
    obtain ⟨i, extends_, extend⟩ := writesBefore_insert pointed.valid (pointed.listed listed)
      (.cast .fpExt (f.argument call 2) .f80) .f80 (List.forall_mem_singleton.mpr value)
    have known := Graph.value?_lt extend.value
    generalize f₁.insert (.cast .fpExt (f.argument call 2) .f80) .f80 (.before call) = long at extends_ extend known
    obtain ⟨j, all, stores, store, state, below⟩ :=
      whole (pointed.trans old extends_) long.2 (extends_.puts.value_lt pointer) known
    rw [state]
    have points₃ := (points.carry (extends_.carries casts)).carry (stores.carries casts)
    have typed : long.1.TypedSo id (f.argument call 2) (· ≠ .f80) :=
      ⟨_, extends_.puts.value_lt value, rfl, by rwa [extends_.puts.ty_eq value]⟩
    refine ⟨_, casts ++ [i, j], f.argument call 0, rfl, List.append_assoc casts [i] [j] ▸ all, ?_, below⟩
    exact .longStore points₃ ((stores.carries (f := f) casts).typedSo typed) (stores.puts.defines extend) store
  next alike =>
    obtain ⟨j, all, stores, store, state, below⟩ := whole pointed (f.argument call 2) pointer value
    rw [state]
    refine ⟨_, casts ++ [j], f.argument call 0, rfl, all, ?_, below⟩
    refine .store (points.carry (stores.carries casts)) (fun wide => ?_) store
    exact (stores.carries (f := f) casts).typedSo (σ := id) ⟨_, value, rfl, not_not.mp fun other => alike ⟨wide, other⟩⟩

/-- A call with all its arguments is taken out behind what computes it. -/
theorem lowerCall_computes (valid : f.Valid) (listed : call ∈ f.code) (lowered : intrinsic.isLowered)
    (enough : intrinsic.arity ≤ (f.graph.operands call).length)
    (casts : 1 < intrinsic.arity → ∀ p, f.graph.castOf? (f.argument call 1) = some (.ptrToInt, p) → f.graph.Has p) :
    ∃ g news v, (f.lowerCall call intrinsic).1 = (g.forwardResult call v).remove call ∧ WritesBefore call news f g ∧
      Computes f g id call intrinsic news v ∧ g.graph.Has v := by
  have there (n : Nat) (below : n < intrinsic.arity) : f.graph.Has (f.argument call n) :=
    valid.operand_lt listed (argument_mem (Nat.lt_of_lt_of_le below enough))
  unfold lowerCall
  cases intrinsic with
  | readMemory width =>
    obtain ⟨g, news, v, same, rest⟩ :=
      lowerToLoad_computes valid listed (there 1 Nat.one_lt_two) (casts Nat.one_lt_two) width
    exact ⟨g, news, v, congrArg (remove · call) same, rest⟩
  | writeMemory width =>
    obtain ⟨g, news, v, same, rest⟩ := lowerToStore_computes valid listed there (casts (show 1 < 3 by decide)) width
    exact ⟨g, news, v, congrArg (remove · call) same, rest⟩
  | barrier kind => exact ⟨f, [], _, rfl, .refl valid call, .barrier, there 0 Nat.one_pos⟩
  | _ => cases lowered

end Func

end VarRecovery
