import Mathlib.Data.List.Nodup
import VarRecovery.Pointer.Displacement
import VarRecovery.Proofs.Pointer.Growth

/-!
Folding a displacement is a chain of edits, which takes out the sum and nothing else.
-/

set_option autoImplicit false

namespace VarRecovery.Func

variable {typed fed closed : Prop} {f g : Func} {anchor : InstId}

/-! ### Writing code -/

/-- What a step of writing code has done: nothing was taken out, and the value it gave can be used. -/
structure Written (typed fed closed : Prop) (f g : Func) (v : ValueId) : Prop where
  edits : Edits typed fed closed [] [] f g
  usable : g.Usable closed v

theorem Sound.writtenBefore (sound : f.Sound typed fed closed) (place : f.Anchor anchor) (inst : Inst) (ty : Ty)
    (isPure : inst.isPure) (noPhi : inst.isPhi = false) (noSum : inst.isSum = false)
    (usable : ∀ v ∈ inst.operands, f.Usable closed v) (casts : typed → f.graph.CastsPointer inst) :
    Written typed fed closed f (f.insert inst ty (.before anchor)).1 f.graph.nextValue where
  edits := (Edit.insert ty isPure noPhi noSum place.listed place.behind usable casts).edits
  usable := usable_nextValue (nextInst_mem_insertBefore sound.valid place.listed inst ty)

theorem Sound.gepBefore (sound : f.Sound typed fed closed) (place : f.Anchor anchor) {ptr : ValueId}
    {indices : List ValueId} (usable : f.Usable closed ptr) (indexed : ∀ v ∈ indices, f.Usable closed v)
    (ty : Ty) :
    Written typed fed closed f (f.insert (.gep ptr indices) ty (.before anchor)).1 f.graph.nextValue := by
  refine sound.writtenBefore place _ ty rfl rfl rfl (fun v operand => ?_) (fun _ _ _ cast => nomatch cast)
  rcases List.mem_cons.mp operand with rfl | index
  · exact usable
  · exact indexed v index

theorem Sound.castBefore (sound : f.Sound typed fed closed) (place : f.Anchor anchor) (op : CastOp) {arg : ValueId}
    (usable : f.Usable closed arg) (pointer : typed → op = .ptrToInt → (f.graph.ty arg).isPtr) (ty : Ty) :
    Written typed fed closed f (f.insert (.cast op arg ty) ty (.before anchor)).1 f.graph.nextValue := by
  refine sound.writtenBefore place _ ty rfl rfl rfl (fun v operand => ?_) ?_
  · exact List.mem_singleton.mp operand ▸ usable
  · rintro restricted v castTy ⟨⟩
    exact pointer restricted rfl

/-! ### Paths -/

theorem addOffsets_edits (L : DataLayout) (sound : f.Sound typed fed closed) (offsets : List Nat) :
    Edits typed fed closed [] [] f (addOffsets L f offsets).1 ∧
      ∀ v ∈ (addOffsets L f offsets).2, (addOffsets L f offsets).1.Usable closed v := by
  induction offsets generalizing f with
  | nil => exact ⟨.refl f, fun v member => nomatch member⟩
  | cons n ns ih =>
    have first : Edits typed fed closed [] [] f (f.addImm (.ofInt L.pointerWidth n)).1 := (Edit.imm _).edits
    obtain ⟨rest, usable⟩ := ih (first.sound sound)
    refine ⟨first.trans rest, fun v member => ?_⟩
    rcases List.mem_cons.mp member with rfl | later
    · exact rest.usable (first.sound sound) (usable_addImm closed f _) (by simp)
    · exact usable v later

theorem isPtr_restStep (L : DataLayout) (castTy : Option Ty) (rest : Nat) :
    (restStep L castTy rest).1.isPtr := by
  unfold restStep
  split
  · split
    · split <;> rfl
    · rfl
  · rfl

theorem insertRest_written (L : DataLayout) (sound : f.Sound typed fed closed) (place : f.Anchor anchor)
    {part : ValueId} (usable : f.Usable closed part) {ty : Ty} (isPtr : ty.isPtr) (n : Int) :
    let base := f.insert (.cast .bitcast part ty) ty (.before anchor)
    let index := base.1.addImm (.ofInt L.pointerWidth n)
    let last := index.1.insert (.gep base.2 [index.2]) ty (.before anchor)
    Written typed fed closed f last.1 last.2 ∧ (last.1.graph.ty last.2).isPtr := by
  simp only [value_insert]
  have base := sound.castBefore place .bitcast usable nofun ty
  generalize (f.insert (.cast .bitcast part ty) ty (.before anchor)).1 = f₁ at base
  have sound₁ := base.edits.sound sound
  have index : Edits typed fed closed [] [] f₁ (f₁.addImm (.ofInt L.pointerWidth n)).1 := (Edit.imm _).edits
  have usableIndex := usable_addImm closed f₁ (.ofInt L.pointerWidth n)
  have usableBase := index.usable sound₁ base.usable (by simp)
  have whole : Edits typed fed closed [] [] f _ := base.edits.trans index
  generalize f₁.addImm (.ofInt L.pointerWidth n) = indexed at *
  obtain ⟨f₂, i⟩ := indexed
  have last := (whole.sound sound).gepBefore (whole.anchor sound place (by simp)) usableBase
    (fun v member => List.mem_singleton.mp member ▸ usableIndex) ty
  refine ⟨⟨whole.trans last.edits, last.usable⟩, ?_⟩
  rwa [ty_nextValue]

theorem insertPath_written (L : DataLayout) (sound : f.Sound typed fed closed) (place : f.Anchor anchor)
    {ptr : ValueId} (usable : f.Usable closed ptr) (path : TyPath) (castTy : Option Ty) :
    Written typed fed closed f (insertPath L f ptr path castTy anchor).1
        (insertPath L f ptr path castTy anchor).2.2 ∧
      ((insertPath L f ptr path castTy anchor).1.graph.ty
        (insertPath L f ptr path castTy anchor).2.2).isPtr := by
  obtain ⟨offsets, indices⟩ := addOffsets_edits L sound path.indices
  unfold insertPath
  generalize addOffsets L f path.indices = numbered at offsets indices
  obtain ⟨f₁, vs⟩ := numbered
  have part := (offsets.sound sound).gepBefore (offsets.anchor sound place (by simp))
    (offsets.usable sound usable (by simp)) indices (.ptr path.ty)
  have whole : Edits typed fed closed [] [] f _ := offsets.trans part.edits
  simp only
  split
  next =>
    refine ⟨⟨whole, value_insert f₁ _ _ _ ▸ part.usable⟩, ?_⟩
    rw [value_insert, ty_nextValue]
    rfl
  next =>
    obtain ⟨rest, isPtr⟩ := insertRest_written L (whole.sound sound) (whole.anchor sound place (by simp))
      (value_insert f₁ _ _ _ ▸ part.usable) (isPtr_restStep L castTy path.rest)
      (path.rest / (restStep L castTy path.rest).2 : Nat)
    exact ⟨⟨whole.trans rest.edits, rest.usable⟩, isPtr⟩

/-! ### Sums -/

theorem users_replaceUses_self (valid : f.Valid) {old new : ValueId} (inside : new.index < f.graph.values.size)
    (other : new ≠ old) : (f.graph.replaceUses old new).users old = [] := by
  refine List.eq_nil_iff_forall_not_mem.mpr fun i user => ?_
  rcases (Graph.mem_users_replaceUses f.graph (valid.graph.size_userLists ▸ inside) i old).mp user with
    ⟨-, differ⟩ | ⟨same, -⟩
  · exact differ rfl
  · exact other same.symm

theorem Sound.replaceResult (sound : f.Sound typed fed closed) {i : InstId} (listed : i ∈ f.code) {inst : Inst}
    (found : f.graph.inst? i = some inst) (isPure : inst.isPure) {old new : ValueId}
    (result : f.graph.result? i = some old) (usable : f.Usable closed new) (other : new ≠ old)
    (same : f.graph.ty new = f.graph.ty old) (address : f.graph.IsAddress new) :
    Edits typed fed closed [] [i] f ((f.updateGraph (·.replaceUses old new)).remove i) := by
  have replaced : Edits typed fed closed [] [] f _ := (Edit.replace usable same address).edits
  -- Once another value has all its uses, nothing keeps the instruction.
  refine replaced.sweep listed (isDead_iff.mpr ?_)
  obtain ⟨σ, after, -⟩ := (replaced.grows sound).inst i inst found
  refine ⟨_, old, after, ?_, (Graph.result?_replaceUses ..).trans result,
    users_replaceUses_self sound.valid usable.lt other⟩
  rwa [Inst.isPure_mapOperands]

theorem foldSum_edits {L : DataLayout} (sound : f.Sound typed fed closed) {ptr : ValueId} {d : Displacement}
    {pointers : List ValueId} {inst : Inst} (listed : d.sum ∈ f.code)
    (found : f.graph.inst? d.sum = some inst) (isSum : inst.isSum)
    (defined : closed → ∀ i, f.graph.definition? ptr = some i → i ∈ f.code)
    (folded : f.foldSum L ptr d = some (g, pointers)) : Edits typed fed closed [] [d.sum] f g := by
  obtain ⟨offset, -, folded⟩ := Option.bind_eq_some_iff.mp folded
  obtain ⟨sum, result, folded⟩ := Option.bind_eq_some_iff.mp folded
  obtain ⟨pointee, points, folded⟩ := Option.bind_eq_some_iff.mp folded
  obtain ⟨path, -, folded⟩ := Option.bind_eq_some_iff.mp folded
  have isPtr : (f.graph.ty ptr).isPtr := by
    cases ty : f.graph.ty ptr <;> simp_all [Ty.pointee?, Ty.isPtr]
  have noPhi : f.graph.isPhi d.sum = false := by
    rw [Graph.isPhi, found]
    exact Inst.isPhi_of_isSum isSum
  have place : f.Anchor d.sum := ⟨listed, noPhi⟩
  obtain ⟨written, isPtr⟩ := insertPath_written L sound place ⟨Graph.lt_of_isPtr isPtr, defined⟩ path
    (f.graph.pointerCastTy? sum)
  generalize insertPath L f ptr path (f.graph.pointerCastTy? sum) d.sum = whole at folded written isPtr
  obtain ⟨f₁, new, v⟩ := whole
  have sound₁ := written.edits.sound sound
  have place₁ := written.edits.anchor sound place (by simp)
  have sumInside := (sound.valid.graph.result_lt result).2
  generalize intTy : f.graph.ty sum = ty at folded
  -- The path has been written: its address takes the place of the sum, which then is dead.
  have int := sound₁.castBefore place₁ .ptrToInt written.usable (fun _ _ => isPtr) ty
  have all : Edits typed fed closed [] [] f _ := written.edits.trans int.edits
  have sumTy : (f₁.insert (.cast .ptrToInt v ty) ty (.before d.sum)).1.graph.ty sum = ty :=
    ((all.grows sound).ty sumInside).trans intTy
  obtain ⟨σ, after, -⟩ := (all.grows sound).inst d.sum inst found
  have last := (all.sound sound).replaceResult (all.listed sound listed (by simp)) after
    ((Inst.isPure_mapOperands σ inst).trans (Inst.isPure_of_isSum isSum))
    (((all.grows sound).result d.sum (Graph.inst?_lt found)).trans result) int.usable (by
      rintro rfl
      exact Nat.lt_irrefl _ ((written.edits.grows sound).value_lt sumInside))
    ((ty_nextValue ..).trans sumTy.symm) ⟨v, ty, defining?_nextValue ..⟩
  have whole : ((f₁.insert (.cast .ptrToInt v ty) ty (.before d.sum)).1.updateGraph (·.replaceUses sum
      (f₁.insert (.cast .ptrToInt v ty) ty (.before d.sum)).2)).remove d.sum = g :=
    congrArg Prod.fst (Option.some.inj folded)
  rw [value_insert] at whole
  exact whole ▸ all.trans last

/-! ### The displacements of a pointer -/

theorem mem_codeUsers {v : ValueId} {i : InstId} : i ∈ f.codeUsers v ↔ i ∈ f.graph.users v ∧ i ∈ f.code := by
  simp [codeUsers]

theorem mem_addresses {ptr base : ValueId} : base ∈ f.addresses ptr ↔
    ∃ i ∈ f.codeUsers ptr, f.graph.isPtrToInt i ∧ f.graph.result? i = some base := by
  simp [addresses, and_assoc]

def displaced? (f : Func) (base : ValueId) (sum : InstId) : Option Displacement :=
  (f.graph.displacement? sum base).bind fun n => if 0 ≤ n then some ⟨sum, base⟩ else none

theorem displaced?_eq_some {base : ValueId} {sum : InstId} {d : Displacement} :
    f.displaced? base sum = some d ↔
      d = ⟨sum, base⟩ ∧ ∃ n, f.graph.displacement? sum base = some n ∧ 0 ≤ n := by
  unfold displaced?
  cases f.graph.displacement? sum base with
  | none => simp
  | some n => by_cases small : 0 ≤ n <;> simp [small, eq_comm]

theorem displacements_eq (f : Func) (ptr : ValueId) : f.displacements ptr =
    (f.addresses ptr).flatMap fun base => (f.codeUsers base).filterMap (f.displaced? base) := by
  refine congrArg (List.flatMap · (f.addresses ptr)) (funext fun base => ?_)
  refine congrArg (List.filterMap · (f.codeUsers base)) (funext fun sum => ?_)
  unfold displaced?
  cases f.graph.displacement? sum base <;> rfl

theorem mem_displacements {ptr : ValueId} {d : Displacement} : d ∈ f.displacements ptr ↔
    d.base ∈ f.addresses ptr ∧ d.sum ∈ f.codeUsers d.base ∧
      ∃ n, f.graph.displacement? d.sum d.base = some n ∧ 0 ≤ n := by
  simp only [displacements_eq, List.mem_flatMap, List.mem_filterMap, displaced?_eq_some]
  constructor
  · rintro ⟨base, member, sum, uses, rfl, offset⟩
    exact ⟨member, uses, offset⟩
  · rintro ⟨member, uses, offset⟩
    exact ⟨d.base, member, d.sum, uses, rfl, offset⟩

theorem isSum_of_displacement {g : Graph} {sum : InstId} {base : ValueId} {n : Int}
    (offset : g.displacement? sum base = some n) :
    ∃ lhs rhs, g.inst? sum = some (.binary .add lhs rhs) ∧
      ∃ i, g.imm? (if lhs = base then rhs else lhs) = some i := by
  obtain ⟨addend, found, offset⟩ := Option.bind_eq_some_iff.mp offset
  obtain ⟨i, known, -⟩ := Option.bind_eq_some_iff.mp offset
  unfold Graph.addend? at found
  split at found
  next lhs rhs inst =>
    cases found
    exact ⟨lhs, rhs, inst, i, known⟩
  next => cases found

theorem imm?_of_definition {g : Graph} {v : ValueId} {i : InstId} (definition : g.definition? v = some i) :
    g.imm? v = none := by
  obtain ⟨ty, found⟩ := Graph.definition?_eq_some.mp definition
  simp [Graph.imm?, found]

theorem base_unique (valid : f.Valid) {ptr : ValueId} {d e : Displacement} (inside : d ∈ f.displacements ptr)
    (other : e ∈ f.displacements ptr) (same : d.sum = e.sum) : d = e := by
  obtain ⟨first, uses, n, offset, -⟩ := mem_displacements.mp inside
  obtain ⟨second, uses', -⟩ := mem_displacements.mp other
  obtain ⟨i, -, -, result⟩ := mem_addresses.mp first
  obtain ⟨j, -, -, result'⟩ := mem_addresses.mp second
  obtain ⟨lhs, rhs, found, imm, known⟩ := isSum_of_displacement offset
  have operand := valid.graph.uses _ _ (mem_codeUsers.mp uses).1
  have operand' := valid.graph.uses _ _ (mem_codeUsers.mp uses').1
  rw [← same] at operand'
  have plain := imm?_of_definition ((valid.graph.result_iff i d.base).mp result)
  have plain' := imm?_of_definition ((valid.graph.result_iff j e.base).mp result')
  simp only [Graph.operands, found, Option.map_some, Option.getD_some, Inst.operands, List.mem_cons,
    List.not_mem_nil, or_false] at operand operand'
  have bases : d.base = e.base := by
    rcases operand with left | right <;> rcases operand' with left' | right'
    · exact left.trans left'.symm
    · simp [left, ← right', plain'] at known
    · by_cases here : lhs = d.base
      · exact left'.trans here |>.symm
      · rw [if_neg here, ← left'] at known
        simp [plain'] at known
    · exact right.trans right'.symm
  cases d
  cases e
  simp_all

theorem nodup_displacements (valid : f.Valid) (ptr : ValueId) :
    ((f.displacements ptr).map Displacement.sum).Nodup := by
  have users (v : ValueId) : (f.codeUsers v).Nodup := (valid.graph.users_nodup v).filter _
  have addresses : (f.addresses ptr).Nodup := by
    refine ((users ptr).filter _).filterMap fun i j base first second => ?_
    have one := (valid.graph.result_iff i base).mp first
    rw [(valid.graph.result_iff j base).mp second] at one
    exact (Option.some.inj one).symm
  have told {base : ValueId} {sum : InstId} {d : Displacement} (found : f.displaced? base sum = some d) :
      d = ⟨sum, base⟩ := (displaced?_eq_some.mp found).1
  have nodup : (f.displacements ptr).Nodup := by
    rw [displacements_eq]
    refine List.nodup_flatMap.mpr ⟨fun base _ => ?_, addresses.imp fun {base other} differ d left right => ?_⟩
    · refine (users base).filterMap fun i j d first second => ?_
      exact congrArg Displacement.sum ((told first).symm.trans (told second))
    · obtain ⟨i, -, first⟩ := List.mem_filterMap.mp left
      obtain ⟨j, -, second⟩ := List.mem_filterMap.mp right
      exact differ (congrArg Displacement.base ((told first).symm.trans (told second)))
  exact nodup.map_on fun d inside e other same => base_unique valid inside other same

end VarRecovery.Func
