import Mathlib.Data.List.Forall2
import VarRecovery.Proofs.Pointer.Displacement

/-!
Sinking a phi of addresses is a chain of edits, which writes one phi, of the pointers under the addresses,
and takes out the old one.
-/

set_option autoImplicit false

namespace List.Forall₂

variable {α β γ : Type} {R : α → β → Prop} {S : β → γ → Prop} {xs : List α} {ys : List β} {zs : List γ}

theorem comp {T : α → γ → Prop} (whole : ∀ x y z, R x y → S y z → T x z) (first : Forall₂ R xs ys)
    (second : Forall₂ S ys zs) : Forall₂ T xs zs := by
  induction first generalizing zs with
  | nil =>
    cases second
    exact .nil
  | cons left _ ih =>
    cases second with
    | cons right rest => exact .cons (whole _ _ _ left right) (ih rest)

theorem exists_of_mem (all : Forall₂ R xs ys) {y : β} (member : y ∈ ys) : ∃ x ∈ xs, R x y := by
  induction all with
  | nil => cases member
  | cons first _ ih =>
    rcases List.mem_cons.mp member with rfl | later
    · exact ⟨_, List.mem_cons_self, first⟩
    · obtain ⟨x, inside, holds⟩ := ih later
      exact ⟨x, List.mem_cons_of_mem _ inside, holds⟩

end List.Forall₂

namespace VarRecovery.Func

variable {typed fed closed : Prop} {f g h : Func} {old new : InstId}

/-! ### Pointers under addresses -/

theorem isAddress_iff {g : Graph} {v : ValueId} :
    g.IsAddress v ↔ ∃ ptr, g.castOf? v = some (.ptrToInt, ptr) := by
  refine exists_congr fun ptr => ?_
  simp only [Graph.castOf?_eq_some, Graph.defining?, Option.bind_eq_some_iff]
  exact exists_comm

/-- Whether a pointer is the one under an address, or a bitcast of it in the block that it comes from. -/
def CarriesPointer (f : Func) (address pointer : ValueId × BlockId) : Prop :=
  pointer.2 = address.2 ∧ ∃ ptr, f.graph.castOf? address.1 = some (.ptrToInt, ptr) ∧
    (pointer.1 = ptr ∨ ∃ i ty, f.graph.definition? pointer.1 = some i ∧
      f.graph.inst? i = some (.cast .bitcast ptr ty) ∧ i ∈ f.listing.insts pointer.2)

/-- Whether the phi `new` has the pointers under the addresses that the phi `old` has, from the same blocks
in the same order. -/
def Sinks (f : Func) (old new : InstId) : Prop :=
  ∃ incoming ty pointers ptrTy, f.graph.inst? old = some (.phi incoming ty) ∧
    f.graph.inst? new = some (.phi pointers ptrTy) ∧ List.Forall₂ f.CarriesPointer incoming pointers

/-- What writing code leaves of instructions: all that they say, and their blocks. -/
structure Keeps (f g : Func) : Prop where
  inst : ∀ i inst, f.graph.inst? i = some inst → g.graph.inst? i = some inst
  place : ∀ i block, i ∈ f.listing.insts block → i ∈ g.listing.insts block

theorem Keeps.refl (f : Func) : f.Keeps f :=
  ⟨fun _ _ found => found, fun _ _ inside => inside⟩

theorem Keeps.trans (first : f.Keeps g) (second : g.Keeps h) : f.Keeps h :=
  ⟨fun i inst found => second.inst i inst (first.inst i inst found),
    fun i block inside => second.place i block (first.place i block inside)⟩

theorem Keeps.insertBefore (f : Func) (inst : Inst) (ty : Ty) (anchor : InstId) :
    f.Keeps (f.insert inst ty (.before anchor)).1 where
  inst i other found := by rw [graph_insert, Graph.inst?_emit_of_some found]
  place i block inside := by
    rw [listing_insert]
    exact Listing.mem_insts_insertBefore inside

theorem Keeps.insertTop (f : Func) (inst : Inst) (ty : Ty) (block : BlockId) :
    f.Keeps (f.insert inst ty (.top block)).1 where
  inst i other found := by rw [graph_insert, Graph.inst?_emit_of_some found]
  place i block inside := by
    rw [listing_insert]
    exact Listing.mem_insts_prepend inside

/-- A pointer of the type that phis of pointers are written with: the one it came from, or a bitcast of it
in its block. -/
structure CastOf (closed : Prop) (f : Func) (ty : Ty) (source pointer : ValueId × BlockId) : Prop where
  block : pointer.2 = source.2
  usable : f.Usable closed pointer.1
  carries : pointer.1 = source.1 ∨ ∃ i, f.graph.definition? pointer.1 = some i ∧
    f.graph.inst? i = some (.cast .bitcast source.1 ty) ∧ i ∈ f.listing.insts pointer.2

theorem CastOf.of_keeps {ty : Ty} {source pointer : ValueId × BlockId} (cast : f.CastOf closed ty source pointer)
    (sound : f.Sound typed fed closed) {phis : List InstId} (edits : Edits typed fed closed phis [] f g)
    (keeps : f.Keeps g) : g.CastOf closed ty source pointer where
  block := cast.block
  usable := edits.usable sound cast.usable (by simp)
  carries := cast.carries.imp_right fun ⟨i, definition, found, inside⟩ =>
    ⟨i, ((edits.grows sound).definition? cast.usable.lt).trans definition, keeps.inst i _ found,
      keeps.place i _ inside⟩

theorem Sound.bitcastBefore (sound : f.Sound typed fed closed) {ptr : ValueId} {block : BlockId} {anchor : InstId}
    (last : f.listing.last? block = some anchor) (usable : f.Usable closed ptr) (ty : Ty) :
    Written typed fed closed f (f.insert (.cast .bitcast ptr ty) ty (.before anchor)).1 f.graph.nextValue ∧
      (f.insert (.cast .bitcast ptr ty) ty (.before anchor)).1.CastOf closed ty (ptr, block)
        (f.graph.nextValue, block) := by
  have inside : anchor ∈ f.listing.insts block := List.mem_of_getLast? last
  have place : f.Anchor anchor := sound.ends.anchor
    (Listing.mem_blocks_of_insts rfl (List.ne_nil_of_mem inside)) last
  have cast := sound.castBefore place .bitcast usable nofun ty
  refine ⟨cast, rfl, cast.usable, .inr ⟨f.graph.nextInst, ?_, ?_, ?_⟩⟩
  · exact Graph.definition?_eq_some.mpr ⟨ty, value?_nextValue ..⟩
  · rw [graph_insert, Graph.inst?_emit, if_pos rfl]
  · rw [listing_insert]
    exact Listing.self_mem_insts_insertBefore inside

theorem castIncoming_edits (ty : Ty) (sound : f.Sound typed fed closed) (incoming : List (ValueId × BlockId))
    (usable : ∀ e ∈ incoming, f.Usable closed e.1) :
    Edits typed fed closed [] [] f (castIncoming ty f incoming).1 ∧ f.Keeps (castIncoming ty f incoming).1 ∧
      (∀ pointers, (castIncoming ty f incoming).2 = some pointers →
        List.Forall₂ ((castIncoming ty f incoming).1.CastOf closed ty) incoming pointers) ∧
      ((∀ e ∈ incoming, e.2 ∈ f.listing.blockIds) → (castIncoming ty f incoming).2.isSome) := by
  induction incoming generalizing f with
  | nil =>
    refine ⟨.refl f, .refl f, fun pointers result => ?_, fun _ => rfl⟩
    cases result
    exact .nil
  | cons e rest ih =>
    obtain ⟨ptr, block⟩ := e
    have others : ∀ e ∈ rest, f.Usable closed e.1 := fun e member => usable e (List.mem_cons_of_mem _ member)
    have here : f.Usable closed ptr := usable (ptr, block) List.mem_cons_self
    unfold castIncoming
    split
    next =>
      obtain ⟨edits, keeps, casts, complete⟩ := ih sound others
      refine ⟨edits, keeps, fun pointers result => ?_, fun blocks => ?_⟩
      · obtain ⟨tail, found, rfl⟩ := Option.map_eq_some_iff.mp result
        exact .cons ⟨rfl, edits.usable sound here (by simp), .inl rfl⟩ (casts tail found)
      · simpa using complete fun e member => blocks e (List.mem_cons_of_mem _ member)
    next =>
      split
      -- A block that is there ends in a terminator, so there is a place to cast in front of.
      next absent =>
        refine ⟨.refl f, .refl f, fun pointers result => (nomatch result), fun blocks => ?_⟩
        have listed := Listing.exists_block_of_mem_blockIds (blocks (ptr, block) List.mem_cons_self)
        obtain ⟨i, -, last, -⟩ := sound.ends _ listed
        rw [Listing.last?, last] at absent
        cases absent
      next anchor last =>
        obtain ⟨cast, bitcast⟩ := sound.bitcastBefore last here ty
        have kept := Keeps.insertBefore f (.cast .bitcast ptr ty) ty anchor
        simp only [value_insert]
        have sound₁ := cast.edits.sound sound
        obtain ⟨edits, keeps, casts, complete⟩ := ih sound₁ fun e member =>
          cast.edits.usable sound (others e member) (by simp)
        refine ⟨cast.edits.trans edits, kept.trans keeps, fun pointers result => ?_, fun blocks => ?_⟩
        · obtain ⟨tail, found, rfl⟩ := Option.map_eq_some_iff.mp result
          exact .cons (bitcast.of_keeps sound₁ edits keeps) (casts tail found)
        · rw [Option.isSome_map]
          refine complete fun e member => ?_
          rw [cast.edits.blockIds]
          exact blocks e (List.mem_cons_of_mem _ member)

/-! ### The new phi -/

theorem CarriesPointer.of_keeps {address pointer : ValueId × BlockId}
    (carries : f.CarriesPointer address pointer) (grown : f.graph.Extends g.graph) (keeps : f.Keeps g) :
    g.CarriesPointer address pointer := by
  obtain ⟨block, ptr, cast, from_⟩ := carries
  obtain ⟨i, ty, definition, found⟩ := Graph.castOf?_eq_some.mp cast
  have known {v : ValueId} {j : InstId} (definition : f.graph.definition? v = some j) :
      g.graph.definition? v = some j := by
    obtain ⟨resultTy, result⟩ := Graph.definition?_eq_some.mp definition
    exact Graph.definition?_eq_some.mpr ⟨resultTy, grown.value _ _ result⟩
  refine ⟨block, ptr, Graph.castOf?_eq_some.mpr ⟨i, ty, known definition, keeps.inst i _ found⟩, ?_⟩
  refine from_.imp_right fun ⟨j, castTy, definition, found, inside⟩ => ?_
  exact ⟨j, castTy, known definition, keeps.inst j _ found, keeps.place j _ inside⟩

theorem Sinks.replaceUses (sinks : f.Sinks old new) (sound : f.Sound typed fed closed) (restricted : closed)
    (oldListed : old ∈ f.code) (newListed : new ∈ f.code) {result : ValueId}
    (definition : f.graph.definition? result = some old) (int : ValueId) :
    (f.updateGraph (·.replaceUses result int)).Sinks old new := by
  obtain ⟨incoming, ty, pointers, ptrTy, oldFound, newFound, carries⟩ := sinks
  have replaced {i : InstId} {inst : Inst} (listed : i ∈ f.code) (found : f.graph.inst? i = some inst) :
      (f.graph.replaceUses result int).inst? i = some (inst.replace result int) := by
    rw [inst?_replaceUses_of_listed sound.valid listed, found]
    rfl
  have same (v : ValueId) : (f.graph.replaceUses result int).definition? v = f.graph.definition? v := by
    rw [Graph.definition?, Graph.value?_replaceUses, Graph.definition?]
  -- The result of the old phi is no cast. So the casts stay casts, and what they are taken of changes
  -- alike in all of them.
  have differs {v : ValueId} {i : InstId} {op : CastOp} {arg : ValueId} {castTy : Ty}
      (known : f.graph.definition? v = some i) (found : f.graph.inst? i = some (.cast op arg castTy)) :
      v ≠ result := by
    rintro rfl
    rw [definition] at known
    cases known
    rw [oldFound] at found
    cases found
  refine ⟨_, ty, _, ptrTy, replaced oldListed oldFound, replaced newListed newFound, ?_⟩
  rw [List.forall₂_map_left_iff, List.forall₂_map_right_iff]
  have inside := (List.forall₂_and_left (p := (· ∈ incoming)) _ _).mpr ⟨fun _ member => member, carries⟩
  refine inside.imp ?_
  rintro ⟨address, from_⟩ ⟨pointer, block⟩ ⟨member, rfl, ptr, cast, carried⟩
  obtain ⟨i, castTy, known, found⟩ := Graph.castOf?_eq_some.mp cast
  have operand : address ∈ f.graph.operands old :=
    Graph.mem_operands.mpr ⟨_, oldFound, List.mem_map_of_mem member⟩
  have listed := sound.defined restricted old oldListed address operand i known
  simp only [if_neg (differs known found)]
  refine ⟨rfl, if ptr = result then int else ptr,
    Graph.castOf?_eq_some.mpr ⟨i, castTy, (same address).trans known, replaced listed found⟩, ?_⟩
  rcases carried with rfl | ⟨j, bitcastTy, defined, bitcast, place⟩
  · exact .inl rfl
  · refine .inr ⟨j, bitcastTy, ?_, replaced (mem_code_of_insts place) bitcast, place⟩
    rw [if_neg (differs defined bitcast)]
    exact (same pointer).trans defined

theorem Sinks.remove (sinks : f.Sinks old new) : (f.remove old).Sinks old new := by
  obtain ⟨incoming, ty, pointers, ptrTy, oldFound, newFound, carries⟩ := sinks
  have inst? (i : InstId) : (f.remove old).graph.inst? i = f.graph.inst? i := f.graph.inst?_untrack old i
  have definition? (v : ValueId) : (f.remove old).graph.definition? v = f.graph.definition? v := by
    rw [Graph.definition?, Func.remove, Graph.value?_untrack, Graph.definition?]
  refine ⟨incoming, ty, pointers, ptrTy, (inst? old).trans oldFound, (inst? new).trans newFound,
    carries.imp ?_⟩
  rintro address pointer ⟨block, ptr, cast, carried⟩
  obtain ⟨i, castTy, known, found⟩ := Graph.castOf?_eq_some.mp cast
  refine ⟨block, ptr, Graph.castOf?_eq_some.mpr ⟨i, castTy, (definition? _).trans known, (inst? i).trans found⟩,
    carried.imp_right ?_⟩
  rintro ⟨j, bitcastTy, defined, bitcast, place⟩
  refine ⟨j, bitcastTy, (definition? _).trans defined, (inst? j).trans bitcast,
    Listing.mem_insts_remove place ?_⟩
  rintro rfl
  rw [oldFound] at bitcast
  cases bitcast

theorem EndsInTerminators.exists_firstNonPhi (ends : f.EndsInTerminators) {block : BlockId}
    (there : block ∈ f.listing.blockIds) :
    ∃ i, f.listing.firstNonPhi? block f.graph.isPhi = some i ∧ f.Anchor i := by
  have listed := Listing.exists_block_of_mem_blockIds there
  obtain ⟨last, inst, at_, found, terminates⟩ := ends _ listed
  have plain : f.graph.isPhi last = false := by
    rw [Graph.isPhi, found]
    exact Inst.isPhi_of_isTerminator terminates
  unfold Listing.firstNonPhi?
  cases first : (f.listing.insts block).find? (!f.graph.isPhi ·) with
  | none => simpa [plain] using List.find?_eq_none.mp first last (List.mem_of_getLast? at_)
  | some i =>
    refine ⟨i, rfl, mem_code_of_block listed (List.mem_of_find?_eq_some first), ?_⟩
    simpa using List.find?_some first

structure PhiWritten (typed fed closed : Prop) (f g : Func) (pointers : List (ValueId × BlockId)) (ty : Ty) :
    Prop where
  edits : Edits typed fed closed [f.graph.nextInst] [] f g
  keeps : f.Keeps g
  found : g.graph.inst? f.graph.nextInst = some (.phi pointers ty)
  listed : f.graph.nextInst ∈ g.code
  ty : g.graph.ty f.graph.nextValue = ty
  usable : g.Usable closed f.graph.nextValue

theorem Sound.phiWritten (sound : f.Sound typed fed closed) {block : BlockId} (there : block ∈ f.listing.blockIds)
    {pointers : List (ValueId × BlockId)} {ty : Ty} (usable : ∀ e ∈ pointers, f.Usable closed e.1)
    (isPtr : typed → ty.isPtr) (grounded : fed → pointers ≠ [] ∧ ∀ e ∈ pointers, e.2 ∈ f.listing.blockIds) :
    PhiWritten typed fed closed f (f.insert (.phi pointers ty) ty (.top block)).1 pointers ty := by
  have listed : f.graph.nextInst ∈ (f.insert (.phi pointers ty) ty (.top block)).1.code :=
    (mem_code_of_perm (.top block) (Listing.perm_prepend sound.valid.blocks_nodup there) _).mpr
      (.inl rfl)
  exact {
    edits := (Edit.phi there usable isPtr grounded).edits
    keeps := Keeps.insertTop f (.phi pointers ty) ty block
    found := by rw [graph_insert, Graph.inst?_emit, if_pos rfl]
    listed := listed
    ty := ty_nextValue f (.phi pointers ty) ty (.top block)
    usable := usable_nextValue listed }

theorem insertSunk_edits (ty : Ty) (block : BlockId) (sound : f.Sound typed fed closed) (listed : old ∈ f.code)
    {incoming pointers : List (ValueId × BlockId)} {oldTy : Ty} {result : ValueId}
    (found : f.graph.inst? old = some (.phi incoming oldTy)) (known : f.graph.result? old = some result)
    (there : block ∈ f.listing.blockIds) (usable : ∀ e ∈ pointers, f.Usable closed e.1)
    (isPtr : typed → ty.isPtr) (grounded : fed → pointers ≠ [] ∧ ∀ e ∈ pointers, e.2 ∈ f.listing.blockIds)
    (carries : List.Forall₂ f.CarriesPointer incoming pointers) :
    ∃ g new ptr, f.insertSunk old result block pointers ty = (g, some ptr) ∧
      Edits typed fed closed [new] [old] f g ∧ (closed → g.Sinks old new) := by
  have phi := sound.phiWritten there usable isPtr grounded
  unfold insertSunk
  simp only [value_insert]
  generalize (f.insert (.phi pointers ty) ty (.top block)).1 = f₁ at *
  -- The phi is written. Its address is taken behind the last phi of the block.
  have sound₁ := phi.edits.sound sound
  obtain ⟨anchor, first, place⟩ := sound₁.ends.exists_firstNonPhi (phi.edits.blockIds ▸ there)
  simp only [first]
  generalize intTy : f.graph.ty result = castTy
  have int := sound₁.castBefore place .ptrToInt phi.usable (fun restricted _ => phi.ty ▸ isPtr restricted) castTy
  have keeps := phi.keeps.trans (Keeps.insertBefore f₁ (.cast .ptrToInt f.graph.nextValue castTy) castTy anchor)
  have resultTy := ty_nextValue f₁ (.cast .ptrToInt f.graph.nextValue castTy) castTy (.before anchor)
  have address : Graph.IsAddress _ f₁.graph.nextValue := ⟨_, _, defining?_nextValue f₁
    (.cast .ptrToInt f.graph.nextValue castTy) castTy (.before anchor)⟩
  have newFound :=
    (Keeps.insertBefore f₁ (.cast .ptrToInt f.graph.nextValue castTy) castTy anchor).inst _ _ phi.found
  have all : Edits typed fed closed [f.graph.nextInst] [] f _ := phi.edits.trans int.edits
  have usableInt := int.usable
  have newThere := int.edits.listed sound₁ phi.listed (by simp)
  generalize (f₁.insert (.cast .ptrToInt f.graph.nextValue castTy) castTy (.before anchor)).1 = f₂ at *
  have grown := all.grows sound
  have inside := sound.valid.graph.result_lt known
  have there₂ := all.listed sound listed (by simp)
  have oldFound := keeps.inst _ _ found
  have knownStill := (grown.result old inside.1).trans known
  -- The old result becomes this address, and the old phi is dead.
  have last := (all.sound sound).replaceResult there₂ oldFound rfl knownStill usableInt (by
      rintro rfl
      exact Nat.lt_irrefl _ ((phi.edits.grows sound).value_lt inside.2))
    (resultTy.trans (((grown.ty inside.2).trans intTy).symm)) address
  refine ⟨_, f.graph.nextInst, f.graph.nextValue, rfl, all.trans last, fun restricted => ?_⟩
  have sinks : f₂.Sinks old f.graph.nextInst :=
    ⟨incoming, oldTy, pointers, ty, oldFound, newFound, carries.imp fun _ _ c => c.of_keeps grown keeps⟩
  have definition := ((all.sound sound).valid.graph.result_iff old result).mp knownStill
  exact (sinks.replaceUses (all.sound sound) restricted there₂ newThere definition _).remove

/-! ### Sinking -/

theorem forall₂_uncastIncoming {g : Graph} {incoming : List (ValueId × BlockId)} {ty : Ty}
    (found : g.inst? old = some (.phi incoming ty)) (addresses : ∀ e ∈ incoming, g.IsAddress e.1) :
    List.Forall₂ (fun address pointer => pointer.2 = address.2 ∧
      g.castOf? address.1 = some (.ptrToInt, pointer.1)) incoming (g.uncastIncoming old) := by
  have split (rest : List (ValueId × BlockId)) (inside : ∀ e ∈ rest, g.IsAddress e.1) :
      List.Forall₂ (fun address pointer => pointer.2 = address.2 ∧
          g.castOf? address.1 = some (.ptrToInt, pointer.1)) rest
        (rest.filterMap fun e => (g.castOf? e.1).map fun cast => (cast.2, e.2)) := by
    induction rest with
    | nil => exact .nil
    | cons e rest ih =>
      obtain ⟨ptr, cast⟩ := isAddress_iff.mp (inside e List.mem_cons_self)
      simp only [List.filterMap_cons, cast, Option.map_some]
      exact .cons ⟨rfl, cast⟩ (ih fun d member => inside d (List.mem_cons_of_mem _ member))
  unfold Graph.uncastIncoming
  rw [found]
  exact split incoming addresses

theorem mem_uncastIncoming {g : Graph} {incoming : List (ValueId × BlockId)} {ty : Ty}
    (found : g.inst? old = some (.phi incoming ty)) (addresses : ∀ e ∈ incoming, g.IsAddress e.1)
    {pointer : ValueId × BlockId} (member : pointer ∈ g.uncastIncoming old) :
    ∃ address ∈ incoming, pointer.2 = address.2 ∧ g.castOf? address.1 = some (.ptrToInt, pointer.1) := by
  unfold Graph.uncastIncoming at member
  rw [found] at member
  obtain ⟨e, inside, uncast⟩ := List.mem_filterMap.mp member
  obtain ⟨ptr, cast⟩ := isAddress_iff.mp (addresses e inside)
  simp only [cast, Option.map_some, Option.some.injEq] at uncast
  exact ⟨e, inside, by rw [← uncast], by rw [cast, ← uncast]⟩

theorem usable_pointer (sound : f.Sound typed fed closed) (guarded : fed ∨ closed) (listed : old ∈ f.code)
    {address ptr : ValueId} (operand : address ∈ f.graph.operands old)
    (cast : f.graph.castOf? address = some (.ptrToInt, ptr)) : f.Usable closed ptr := by
  obtain ⟨i, ty, definition, found⟩ := Graph.castOf?_eq_some.mp cast
  have under (restricted : closed) : f.Usable closed ptr :=
    sound.usable (sound.defined restricted old listed address operand i definition)
      (Graph.mem_operands.mpr ⟨_, found, List.mem_singleton_self ptr⟩)
  refine ⟨?_, fun restricted => (under restricted).defined restricted⟩
  rcases guarded with restricted | restricted
  · exact sound.known restricted i ptr ty found
  · exact (under restricted).lt

theorem isPtr_sunkTy {g : Graph} {result : ValueId} {pointers : List (ValueId × BlockId)} {ty : Ty}
    (typedPointers : ∀ e ∈ pointers, (g.ty e.1).isPtr) (sunk : g.sunkTy? result pointers = some ty) :
    ty.isPtr := by
  unfold Graph.sunkTy? at sunk
  cases down : (g.pointerCastTy? result).filter Ty.isPtr with
  | some castTy =>
    rw [down] at sunk
    cases sunk
    exact (Option.filter_eq_some_iff.mp down).2
  | none =>
    rw [down] at sunk
    obtain ⟨e, last, rfl⟩ := Option.map_eq_some_iff.mp sunk
    exact typedPointers e (List.mem_of_getLast? last)

theorem exists_sunkTy {g : Graph} (result : ValueId) {pointers : List (ValueId × BlockId)}
    (some_ : pointers ≠ []) : ∃ ty, g.sunkTy? result pointers = some ty := by
  unfold Graph.sunkTy?
  cases (g.pointerCastTy? result).filter Ty.isPtr with
  | some castTy => exact ⟨castTy, rfl⟩
  | none => exact ⟨_, by rw [List.getLast?_eq_some_getLast some_]; rfl⟩

structure Uncast (typed fed closed : Prop) (f : Func) (pointers : List (ValueId × BlockId)) : Prop where
  usable : ∀ e ∈ pointers, f.Usable closed e.1
  isPtr : typed → ∀ e ∈ pointers, (f.graph.ty e.1).isPtr
  blocks : fed → ∀ e ∈ pointers, e.2 ∈ f.listing.blockIds
  ne_nil : fed → pointers ≠ []

theorem Sound.uncast (sound : f.Sound typed fed closed) (guarded : fed ∨ closed) (listed : old ∈ f.code)
    {incoming : List (ValueId × BlockId)} {ty : Ty} (found : f.graph.inst? old = some (.phi incoming ty))
    (addresses : ∀ e ∈ incoming, f.graph.IsAddress e.1) :
    Uncast typed fed closed f (f.graph.uncastIncoming old) := by
  have under (p) (member : p ∈ f.graph.uncastIncoming old) := mem_uncastIncoming found addresses member
  refine ⟨fun p member => ?_, fun restricted p member => ?_, fun restricted p member => ?_, fun restricted => ?_⟩
  · obtain ⟨e, inside, -, cast⟩ := under p member
    refine usable_pointer sound guarded listed ?_ cast
    exact Graph.mem_operands.mpr ⟨_, found, List.mem_map_of_mem inside⟩
  · obtain ⟨e, -, -, cast⟩ := under p member
    obtain ⟨i, castTy, -, cast⟩ := Graph.castOf?_eq_some.mp cast
    exact sound.casts restricted i _ cast p.1 castTy rfl
  · obtain ⟨e, inside, same, -⟩ := under p member
    exact same ▸ (sound.grounded restricted old listed incoming ty found).2 e inside
  · intro none_
    have length := (forall₂_uncastIncoming found addresses).length_eq
    rw [none_] at length
    exact (sound.grounded restricted old listed incoming ty found).1 (List.length_eq_zero_iff.mp length)

theorem CastOf.carriesPointer {ty : Ty} {address ptr pointer : ValueId × BlockId}
    (made : g.CastOf closed ty ptr pointer) (block : ptr.2 = address.2)
    (under : f.graph.castOf? address.1 = some (.ptrToInt, ptr.1)) (grown : f.graph.Extends g.graph)
    (keeps : f.Keeps g) : g.CarriesPointer address pointer := by
  obtain ⟨i, castTy, definition, found⟩ := Graph.castOf?_eq_some.mp under
  obtain ⟨resultTy, value⟩ := Graph.definition?_eq_some.mp definition
  have defined := Graph.definition?_eq_some.mpr ⟨resultTy, grown.value _ _ value⟩
  refine ⟨made.block.trans block, ptr.1, Graph.castOf?_eq_some.mpr ⟨i, castTy, defined, keeps.inst i _ found⟩, ?_⟩
  refine made.carries.imp_right ?_
  rintro ⟨j, bitcast, there, place⟩
  exact ⟨j, ty, bitcast, there, place⟩

/-- A phi is sunk, or only casts are written. Where all phis have values, it is sunk. -/
theorem sink_edits (sound : f.Sound typed fed closed) (guarded : fed ∨ closed) (listed : old ∈ f.code)
    (merges : f.graph.MergesAddresses old) {result : ValueId} (known : f.graph.result? old = some result) :
    ∃ g out, f.sink old = (g, out) ∧ (fed → out.isSome) ∧
      match out with
      | none => Edits typed fed closed [] [] f g
      | some _ => ∃ new, Edits typed fed closed [new] [old] f g ∧ (closed → g.Sinks old new) := by
  obtain ⟨incoming, oldTy, found, addresses⟩ := merges
  have pairs := forall₂_uncastIncoming found addresses
  have under := sound.uncast guarded listed found addresses
  obtain ⟨block, at_, there⟩ := Listing.exists_blockOf? listed
  unfold sink
  simp only [known, at_]
  generalize f.graph.uncastIncoming old = uncast at *
  cases sunk : f.graph.sunkTy? result uncast with
  | none =>
    refine ⟨f, none, rfl, fun restricted => ?_, .refl f⟩
    obtain ⟨ty, exists_⟩ := exists_sunkTy (g := f.graph) result (under.ne_nil restricted)
    rw [sunk] at exists_
    cases exists_
  | some ty =>
    -- The casts are written at the ends of the incoming blocks before the new phi is placed,
    -- so even a sink that gives up has only added casts nobody reads.
    obtain ⟨edits, keeps, casts, complete⟩ := castIncoming_edits ty sound uncast under.usable
    rcases written : castIncoming ty f uncast with ⟨f₁, pointers⟩
    rw [written] at edits keeps casts complete
    simp only [written]
    cases pointers with
    | none => exact ⟨f₁, none, rfl, fun restricted => (nomatch complete (under.blocks restricted)), edits⟩
    | some pointers =>
      have cast := casts pointers rfl
      have grown := edits.grows sound
      have carries : List.Forall₂ f₁.CarriesPointer incoming pointers :=
        pairs.comp (fun _ _ _ source made => made.carriesPointer source.1 source.2 grown keeps) cast
      have usable (e) (member : e ∈ pointers) : f₁.Usable closed e.1 := by
        obtain ⟨p, -, made⟩ := cast.exists_of_mem member
        exact made.usable
      have grounded (restricted : fed) : pointers ≠ [] ∧ ∀ e ∈ pointers, e.2 ∈ f₁.listing.blockIds := by
        refine ⟨?_, fun e member => ?_⟩
        · rintro rfl
          exact under.ne_nil restricted (List.length_eq_zero_iff.mp cast.length_eq)
        · obtain ⟨p, inside, made⟩ := cast.exists_of_mem member
          rw [made.block, edits.blockIds]
          exact under.blocks restricted p inside
      obtain ⟨g, new, ptr, same, last, sinks⟩ := insertSunk_edits ty block
        (edits.sound sound) (edits.listed sound listed (by simp)) (keeps.inst old _ found)
        ((grown.result old (Graph.inst?_lt found)).trans known) (edits.blockIds ▸ there) usable
        (fun restricted => isPtr_sunkTy (under.isPtr restricted) sunk) grounded carries
      exact ⟨g, some ptr, same, fun _ => rfl, new, edits.trans last, sinks⟩

end VarRecovery.Func
