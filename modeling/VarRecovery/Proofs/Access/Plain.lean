import VarRecovery.Proofs.Access.Materialize
import VarRecovery.Proofs.Code.Extension

/-!
What is left to materialize once it was done. Expressions nest less deep than the numbers of values allow for, so all
of them are written out but those that come into a phi from a block without instructions, and to do it again changes
no instruction.
-/

set_option autoImplicit false

namespace VarRecovery

namespace Inst

/-- The operands of an instruction, those of a phi with the blocks that they come in from. -/
def feeds : Inst → List (ValueId × Option BlockId)
  | .phi incoming _ => incoming.map fun (v, block) => (v, some block)
  | inst => inst.operands.map (·, none)

variable {inst : Inst} {vs : List ValueId}

theorem feeds_of_not_isPhi (plain : inst.isPhi = false) : inst.feeds = inst.operands.map (·, none) := by
  cases inst <;> first | rfl | cases plain

theorem mem_feeds_some {v : ValueId} {b : BlockId} (member : (v, some b) ∈ inst.feeds) :
    ∃ incoming ty, inst = .phi incoming ty ∧ (v, b) ∈ incoming := by
  cases inst with
  | phi incoming ty => exact ⟨incoming, ty, rfl, by simpa [feeds] using member⟩
  | _ => simp [feeds] at member

theorem map_fst_feeds (inst : Inst) : inst.feeds.map Prod.fst = inst.operands := by
  cases plain : inst.isPhi with
  | false => simp [feeds_of_not_isPhi plain, Function.comp_def]
  | true => cases inst <;> simp [isPhi, feeds, operands] at plain ⊢

theorem withOperands_operands (inst : Inst) : inst.withOperands inst.operands = inst := by
  cases inst with
  | leave value => cases value <;> rfl
  | phi incoming ty =>
    have same : (incoming.map Prod.fst).zip (incoming.map Prod.snd) = incoming := (List.zip_of_prod rfl rfl).symm
    rw [operands, withOperands, same]
  | _ => rfl

theorem operands_withOperands (length : vs.length = inst.operands.length) : (inst.withOperands vs).operands = vs := by
  cases inst with
  | alloca | jump => rw [List.length_eq_zero_iff.mp length]; rfl
  | unary | cast | load | branch => obtain ⟨v, rfl⟩ := List.length_eq_one_iff.mp length; rfl
  | binary | store => obtain ⟨v, w, rfl⟩ := List.length_eq_two.mp length; rfl
  | gep => obtain ⟨v, ws, rfl⟩ := List.exists_cons_of_length_eq_add_one length; rfl
  | call => rfl
  | leave value =>
    cases value with
    | none => rw [List.length_eq_zero_iff.mp length]; rfl
    | some value => obtain ⟨v, rfl⟩ := List.length_eq_one_iff.mp length; rfl
  | phi incoming ty =>
    refine List.map_fst_zip (Nat.le_of_eq ?_)
    simpa [operands] using length

theorem isPhi_withOperands (inst : Inst) (vs : List ValueId) : (inst.withOperands vs).isPhi = inst.isPhi := by
  unfold withOperands
  split <;> rfl

theorem feeds_withOperands (length : vs.length = inst.operands.length) :
    (inst.withOperands vs).feeds = vs.zip (inst.feeds.map Prod.snd) := by
  cases plain : inst.isPhi with
  | false =>
    have still : (inst.withOperands vs).isPhi = false := (isPhi_withOperands inst vs).trans plain
    rw [feeds_of_not_isPhi still, operands_withOperands length, feeds_of_not_isPhi plain]
    refine List.ext_getElem (by simp [length]) fun n _ _ => by simp
  | true =>
    cases inst with
    | phi incoming ty => refine List.ext_getElem ?_ fun n _ _ => ?_ <;> simp [withOperands, feeds]
    | _ => cases plain

end Inst

namespace Listing

theorem last?_updateAll {f : InstId → List InstId} (last : ∀ j, (f j).getLast? = some j) (l : Listing) (b : BlockId) :
    (l.updateAll f).last? b = l.last? b := by
  rw [last?, insts_updateAll, getLast?_flatMap last, last?]

@[simp] theorem last?_insertBefore (l : Listing) (i anchor : InstId) (b : BlockId) :
    (l.insertBefore i anchor).last? b = l.last? b :=
  last?_updateAll (getLast?_putBefore i anchor) l b

end Listing

/-- What is in a row with one element of a list is so with one of a list that goes along with it. -/
theorem exists_of_mem_zip {α β γ : Type} {R : α → β → Prop} {as : List α} {bs : List β} (all : List.Forall₂ R as bs)
    (p : α → γ) {u : β × γ} (member : u ∈ bs.zip (as.map p)) : ∃ a ∈ as, R a u.1 ∧ u.2 = p a := by
  induction all with
  | nil => cases member
  | @cons a b as bs here _ ih =>
    rcases List.mem_cons.mp member with rfl | later
    · exact ⟨a, List.mem_cons_self, here, rfl⟩
    · obtain ⟨c, inside, related, same⟩ := ih later
      exact ⟨c, List.mem_cons_of_mem a inside, related, same⟩

namespace Func

variable {f g h : Func} {i j anchor : InstId} {inst : Inst} {v : ValueId} {edited : Set InstId} {blocks : Set BlockId}

theorem isExpr_iff : f.isExpr v = true ↔ ∃ e ty, f.graph.value? v = some (.expr e ty) := by
  unfold isExpr
  split <;> simp_all

/-- Instructions were written that use no expressions, and others edited, but blocks end as they did. Whatever is used
and was not before is there. -/
structure Writes (edited : Set InstId) (f g : Func) : Prop where
  value : ∀ v val, f.graph.value? v = some val → g.graph.value? v = some val
  made : ∀ v val, g.graph.value? v = some val → f.graph.value? v = some val ∨ ∃ i ty, val = .result i ty
  inst : ∀ i inst, i ∉ edited → f.graph.inst? i = some inst → g.graph.inst? i = some inst
  written : ∀ i inst, i ∉ edited → g.graph.inst? i = some inst →
    f.graph.inst? i = some inst ∨ ∀ v ∈ inst.operands, g.isExpr v = false
  operands : ∀ i, ∀ v ∈ g.graph.operands i, g.graph.Has v ∨ v ∈ f.graph.operands i
  size : f.graph.insts.size ≤ g.graph.insts.size
  code : ∀ i ∈ g.code, i ∈ f.code ∨ f.graph.insts.size ≤ i.index
  last : ∀ b, g.listing.last? b = f.listing.last? b
  entry : g.listing.entry? = f.listing.entry?

theorem Writes.isExpr (writes : Writes edited f g) (v : ValueId) : g.isExpr v = f.isExpr v := by
  rw [Bool.eq_iff_iff, isExpr_iff, isExpr_iff]
  constructor
  · rintro ⟨e, ty, found⟩
    rcases writes.made v _ found with old | ⟨i, ty', result⟩
    · exact ⟨e, ty, old⟩
    · cases result
  · rintro ⟨e, ty, found⟩
    exact ⟨e, ty, writes.value v _ found⟩

theorem Writes.has (writes : Writes edited f g) (there : f.graph.Has v) : g.graph.Has v := by
  obtain ⟨val, found⟩ := Graph.exists_value there
  exact Graph.value?_lt (writes.value v val found)

theorem Writes.complete (writes : Writes edited f g) (complete : f.graph.Complete) : g.graph.Complete where
  operands i v operand := (writes.operands i v operand).elim id fun before => writes.has (complete.operands i v before)
  grounded := by
    apply complete.grounded.of_value
    intro v val found
    refine (writes.made v val found).imp_right ?_
    rintro ⟨i, ty, rfl⟩
    rfl

theorem Writes.refl (f : Func) : Writes edited f f :=
  ⟨fun _ _ found => found, fun _ _ found => .inl found, fun _ _ _ found => found, fun _ _ _ found => .inl found,
    fun _ _ operand => .inr operand, Nat.le_refl _, fun _ listed => .inl listed, fun _ => rfl, rfl⟩

theorem Writes.trans (first : Writes edited f g) (second : Writes edited g h) : Writes edited f h where
  value v val found := second.value v val (first.value v val found)
  made v val found := (second.made v val found).elim (first.made v val) .inr
  inst i inst kept found := second.inst i inst kept (first.inst i inst kept found)
  written i inst kept found := by
    rcases second.written i inst kept found with before | plain
    · refine (first.written i inst kept before).imp_right fun plain v operand => ?_
      rw [second.isExpr]
      exact plain v operand
    · exact .inr plain
  operands i v operand :=
    (second.operands i v operand).elim .inl fun before => (first.operands i v before).imp_left second.has
  size := Nat.le_trans first.size second.size
  code i listed := by
    rcases second.code i listed with before | new
    · exact first.code i before
    · exact .inr (Nat.le_trans first.size new)
  last b := (second.last b).trans (first.last b)
  entry := second.entry.trans first.entry

theorem Writes.mono {more : Set InstId} (writes : Writes edited f g) (le : edited ⊆ more) : Writes more f g :=
  { writes with
    inst := fun i inst kept => writes.inst i inst fun member => kept (le member)
    written := fun i inst kept => writes.written i inst fun member => kept (le member) }

/-- An instruction in front of another one, whose operands are no expressions. -/
theorem writes_insertBefore (f : Func) (anchor : InstId) (ty : Ty)
    (plain : ∀ v ∈ inst.operands, f.graph.Has v ∧ f.isExpr v = false) :
    Writes ∅ f (f.insert inst ty (.before anchor)).1 := by
  rw [insert_eq]
  refine ⟨fun v val found => Graph.value?_emit_of_some found inst ty, fun v val found => ?made,
    fun i other _ found => Graph.inst?_emit_of_some found inst ty, fun i other _ found => ?written,
    fun i v operand => ?operands, ?size,
    fun i listed => ?code, fun b => ?last, ?entry⟩
  case made =>
    rw [Graph.value?_emit] at found
    split at found
    next => cases found; exact .inr ⟨_, _, rfl⟩
    next => exact .inl found
  -- The value it makes is a result, so what was no expression before is none now.
  case written =>
    rw [Graph.inst?_emit] at found
    split at found
    next =>
      cases found
      refine .inr fun v operand => Bool.eq_false_iff.mpr fun expr => ?_
      obtain ⟨e, ty', known⟩ := isExpr_iff.mp expr
      rw [Graph.value?_emit] at known
      split at known
      next => cases known
      next => exact Bool.eq_false_iff.mp (plain v operand).2 (isExpr_iff.mpr ⟨e, ty', known⟩)
    next => exact .inl found
  case operands =>
    obtain ⟨other, found, inside⟩ := Graph.mem_operands.mp operand
    rw [Graph.inst?_emit] at found
    split at found
    next =>
      cases found
      obtain ⟨val, known⟩ := Graph.exists_value (plain v inside).1
      exact .inl (Graph.value?_lt (Graph.value?_emit_of_some known inst ty))
    next => exact .inr (Graph.mem_operands.mpr ⟨other, found, inside⟩)
  case size =>
    rw [Graph.size_insts_emit]
    exact Nat.le_succ _
  case code =>
    rcases Listing.mem_allInsts_insert listed with rfl | before
    · exact .inr (Nat.le_refl _)
    · exact .inl before
  case last => exact Listing.last?_insertBefore f.listing _ anchor b
  case entry =>
    rw [Listing.entry?, Listing.blockIds_insert, Listing.entry?]

theorem plain_insert (f : Func) (inst : Inst) (ty : Ty) (place : Place) :
    (f.insert inst ty place).1.graph.Has (f.insert inst ty place).2 ∧
      (f.insert inst ty place).1.isExpr (f.insert inst ty place).2 = false := by
  have made : (f.insert inst ty place).1.graph.value? (f.insert inst ty place).2 = some (.result f.graph.nextInst ty) := by
    rw [graph_insert, value_insert, Graph.value?_emit, if_pos rfl]
  exact ⟨Graph.value?_lt made, by rw [isExpr, made]⟩

theorem materializeValue_writes (complete : f.graph.Complete) (depth : Nat) (there : f.graph.Has v)
    (bounded : v.index < depth) (anchor : InstId) : Writes ∅ f (materializeValue depth f v anchor).1 ∧
      (materializeValue depth f v anchor).1.graph.Has (materializeValue depth f v anchor).2 ∧
      (materializeValue depth f v anchor).1.isExpr (materializeValue depth f v anchor).2 = false := by
  induction depth generalizing f v with
  | zero => cases bounded
  | succ depth ih =>
    have below {w : ValueId} (smaller : w.index < v.index) : f.graph.Has w ∧ w.index < depth :=
      ⟨Nat.lt_trans smaller there, by omega⟩
    unfold materializeValue
    split
    next op arg ty found =>
      obtain ⟨inside, smaller⟩ := below (complete.grounded v _ found arg (List.mem_singleton_self arg))
      obtain ⟨first, plain⟩ := ih complete inside smaller
      generalize materializeValue depth f arg anchor = written at first plain
      obtain ⟨f₁, arg₁⟩ := written
      exact ⟨first.trans (writes_insertBefore f₁ anchor ty (List.forall_mem_singleton.mpr plain)), plain_insert ..⟩
    next op lhs rhs ty found =>
      have smaller := complete.grounded v _ found
      obtain ⟨inside₁, smaller₁⟩ := below (smaller lhs (by simp [Value.operands, ConstExpr.operands]))
      obtain ⟨inside₂, smaller₂⟩ := below (smaller rhs (by simp [Value.operands, ConstExpr.operands]))
      obtain ⟨first, there₁, plain₁⟩ := ih complete inside₁ smaller₁
      generalize materializeValue depth f lhs anchor = written at first there₁ plain₁
      obtain ⟨f₁, lhs₁⟩ := written
      obtain ⟨second, plain₂⟩ := ih (first.complete complete) (first.has inside₂) smaller₂
      dsimp only
      generalize materializeValue depth f₁ rhs anchor = written at second plain₂
      obtain ⟨f₂, rhs₁⟩ := written
      have plain : ∀ w ∈ [lhs₁, rhs₁], f₂.graph.Has w ∧ f₂.isExpr w = false :=
        List.forall_mem_cons.mpr
          ⟨⟨second.has there₁, (second.isExpr lhs₁).trans plain₁⟩, List.forall_mem_singleton.mpr plain₂⟩
      exact ⟨(first.trans second).trans (writes_insertBefore f₂ anchor ty plain), plain_insert ..⟩
    next noCast noBinary =>
      refine ⟨.refl f, there, Bool.eq_false_iff.mpr fun expr => ?_⟩
      obtain ⟨e, ty, found⟩ := isExpr_iff.mp expr
      cases e with
      | cast op arg => exact noCast op arg ty found
      | binary op lhs rhs => exact noBinary op lhs rhs ty found

/-- What comes of an operand: no expression, unless no instruction can be written in front of it. -/
structure WrittenOut (f : Func) (u : ValueId × Option InstId) (v : ValueId) : Prop where
  has : f.graph.Has v
  expr : f.isExpr v = true → u.2 = none ∧ v = u.1

theorem materializeOperands_writes (complete : f.graph.Complete) (depth : Nat) (uses : List (ValueId × Option InstId))
    (there : ∀ u ∈ uses, f.graph.Has u.1 ∧ u.1.index < depth) :
    Writes ∅ f (materializeOperands depth f uses).1 ∧
      List.Forall₂ (materializeOperands depth f uses).1.WrittenOut uses (materializeOperands depth f uses).2 := by
  induction uses generalizing f with
  | nil => exact ⟨.refl f, .nil⟩
  | cons u rest ih =>
    obtain ⟨v, anchor⟩ := u
    obtain ⟨⟨here, bounded⟩, others⟩ := List.forall_mem_cons.mp there
    unfold materializeOperands
    cases anchor with
    | none =>
      obtain ⟨writes, written⟩ := ih complete others
      exact ⟨writes, .cons ⟨writes.has here, fun _ => ⟨rfl, rfl⟩⟩ written⟩
    | some anchor =>
      obtain ⟨first, made, plain⟩ := materializeValue_writes complete depth here bounded anchor
      dsimp only
      generalize materializeValue depth f v anchor = written at first made plain
      obtain ⟨f₁, w⟩ := written
      obtain ⟨second, written⟩ :=
        ih (first.complete complete) fun u member => (others u member).imp_left first.has
      refine ⟨first.trans second, .cons ⟨second.has made, fun expr => ?_⟩ written⟩
      rw [second.isExpr, plain] at expr
      cases expr

/-- Where what an operand is made of would be written. -/
def anchor? (f : Func) (i : InstId) : Option BlockId → Option InstId
  | some b => f.listing.last? b
  | none => some i

theorem anchors_eq (f : Func) (i : InstId) (inst : Inst) :
    f.anchors i inst = inst.feeds.map fun u => (u.1, f.anchor? i u.2) := by
  cases inst <;> simp [anchors, Inst.feeds, anchor?]

/-- An instruction uses no expressions but such as come into a phi from some blocks. -/
def PlainAt (f : Func) (blocks : Set BlockId) (i : InstId) : Prop :=
  ∀ inst, f.graph.inst? i = some inst → ∀ u ∈ inst.feeds, f.isExpr u.1 = true → ∃ b ∈ blocks, u.2 = some b

/-- Some blocks are the only ones without instructions that expressions come into a phi from. -/
def OpenAt (f : Func) (blocks : Set BlockId) (i : InstId) : Prop :=
  ∀ inst, f.graph.inst? i = some inst → ∀ u ∈ inst.feeds, f.isExpr u.1 = true → ∀ b, u.2 = some b →
    f.listing.last? b = none → b ∈ blocks

theorem PlainAt.open (plain : f.PlainAt blocks i) : f.OpenAt blocks i := by
  intro inst found u member expr b from_ _
  obtain ⟨c, inside, same⟩ := plain inst found u member expr
  cases from_.symm.trans same
  exact inside

theorem Writes.plainAt (writes : Writes edited f g) (kept : i ∉ edited) (plain : f.PlainAt blocks i) :
    g.PlainAt blocks i := by
  intro inst found u member expr
  rcases writes.written i inst kept found with before | new
  · rw [writes.isExpr] at expr
    exact plain inst before u member expr
  · have operand : u.1 ∈ inst.operands := inst.map_fst_feeds ▸ List.mem_map_of_mem member
    cases (new u.1 operand).symm.trans expr

theorem Writes.openAt (writes : Writes edited f g) (kept : i ∉ edited) (opens : f.OpenAt blocks i) :
    g.OpenAt blocks i := by
  intro inst found u member expr b from_ bare
  rcases writes.written i inst kept found with before | new
  · rw [writes.isExpr] at expr
    rw [writes.last] at bare
    exact opens inst before u member expr b from_ bare
  · have operand : u.1 ∈ inst.operands := inst.map_fst_feeds ▸ List.mem_map_of_mem member
    cases (new u.1 operand).symm.trans expr

/-- What is written is plain. -/
theorem Writes.plainAt_of_le (writes : Writes edited f g) (kept : i ∉ edited) (new : f.graph.insts.size ≤ i.index) :
    g.PlainAt blocks i := by
  refine writes.plainAt kept fun inst found => ?_
  cases Nat.lt_irrefl _ (Nat.lt_of_lt_of_le (Graph.inst?_lt found) new)

theorem writes_setInst (f : Func) (i : InstId) (known : ∀ v ∈ inst.operands, f.graph.Has v) :
    Writes {i} f (f.updateGraph (·.setInst i inst)) := by
  obtain ⟨same, -, size⟩ := Graph.setInst_eq f.graph i inst
  have value (v : ValueId) : (f.graph.setInst i inst).value? v = f.graph.value? v := by
    rw [Graph.value?, congrArg Graph.values same, Graph.value?]
  have others (j : InstId) (other : j ∉ ({i} : Set InstId)) : (f.graph.setInst i inst).inst? j = f.graph.inst? j := by
    rw [Graph.inst?_setInst, if_neg fun here => other (Set.mem_singleton_iff.mpr here)]
  refine ⟨fun v val found => (value v).trans found, fun v val found => .inl ((value v).symm.trans found),
    fun j other kept found => (others j kept).trans found, fun j other kept found => .inl ((others j kept).symm.trans found),
    fun j v operand => ?_, Nat.le_of_eq size.symm, fun j listed => .inl listed, fun b => rfl, rfl⟩
  obtain ⟨other, found, inside⟩ := Graph.mem_operands.mp operand
  change (f.graph.setInst i inst).inst? j = some other at found
  rw [Graph.inst?_setInst] at found
  split at found
  next =>
    obtain ⟨before, -, rfl⟩ := Option.map_eq_some_iff.mp found
    obtain ⟨val, known⟩ := Graph.exists_value (known v inside)
    exact .inl (Graph.value?_lt ((value v).trans known))
  next => exact .inr (Graph.mem_operands.mpr ⟨other, found, inside⟩)

theorem materializeInst_writes (complete : f.graph.Complete) (opens : f.OpenAt blocks i) :
    Writes {i} f (f.materializeInst i) ∧ (f.materializeInst i).PlainAt blocks i := by
  unfold materializeInst
  split
  next absent =>
    refine ⟨.refl f, fun inst found => ?_⟩
    cases absent.symm.trans found
  next inst found =>
    split
    next =>
      have there (u : ValueId × Option InstId) (member : u ∈ f.anchors i inst) : f.graph.Has u.1 := by
        rw [anchors_eq] at member
        obtain ⟨w, feed, rfl⟩ := List.mem_map.mp member
        exact complete.operands i w.1
          (Graph.mem_operands.mpr ⟨inst, found, inst.map_fst_feeds ▸ List.mem_map_of_mem feed⟩)
      obtain ⟨writes, written⟩ := materializeOperands_writes complete f.graph.values.size (f.anchors i inst)
        fun u member => ⟨there u member, there u member⟩
      dsimp only
      generalize materializeOperands f.graph.values.size f (f.anchors i inst) = made at writes written
      obtain ⟨f₁, vs⟩ := made
      rw [anchors_eq, List.forall₂_map_left_iff] at written
      have length : vs.length = inst.operands.length := by
        rw [← written.length_eq, ← inst.map_fst_feeds, List.length_map]
      have has : ∀ v ∈ vs, f₁.graph.Has v := fun v member => by
        obtain ⟨n, inside, rfl⟩ := List.getElem_of_mem member
        exact (written.get (written.length_eq.symm ▸ inside) inside).has
      rw [← Inst.operands_withOperands length] at has
      have last := writes_setInst f₁ i has
      refine ⟨(writes.mono (Set.empty_subset _)).trans last, fun other again u member expr => ?_⟩
      have still : f₁.graph.inst? i = some inst := writes.inst i inst (Set.notMem_empty i) found
      change (f₁.graph.setInst i _).inst? i = _ at again
      rw [Graph.inst?_setInst, if_pos rfl, still] at again
      cases again
      rw [Inst.feeds_withOperands length] at member
      obtain ⟨w, feed, kept, from_⟩ := exists_of_mem_zip written Prod.snd member
      rw [last.isExpr] at expr
      obtain ⟨nowhere, same⟩ := kept.expr expr
      obtain ⟨v, block⟩ := w
      cases block with
      | none => cases nowhere
      | some b =>
        rw [same, writes.isExpr] at expr
        exact ⟨b, opens inst found _ feed expr b rfl nowhere, from_⟩
    next plain =>
      refine ⟨.refl f, fun other again u member expr => ?_⟩
      cases found.symm.trans again
      have operand : u.1 ∈ inst.operands := inst.map_fst_feeds ▸ List.mem_map_of_mem member
      exact absurd (List.any_eq_true.mpr ⟨u.1, operand, expr⟩) plain

theorem materializeInsts_writes (complete : f.graph.Complete) {is : List InstId} (opens : ∀ i ∈ is, f.OpenAt blocks i)
    (code : ∀ i ∈ f.code, i ∈ is ∨ f.PlainAt blocks i) : Writes Set.univ f (is.foldl materializeInst f) ∧
      ∀ i ∈ (is.foldl materializeInst f).code, (is.foldl materializeInst f).PlainAt blocks i := by
  induction is generalizing f with
  | nil => exact ⟨.refl f, fun i listed => (code i listed).resolve_left List.not_mem_nil⟩
  | cons i is ih =>
    obtain ⟨here, others⟩ := List.forall_mem_cons.mp opens
    obtain ⟨writes, plain⟩ := materializeInst_writes complete here
    have apart {j : InstId} (other : j ≠ i) : j ∉ ({i} : Set InstId) := other
    have still (j : InstId) (member : j ∈ is) : (f.materializeInst i).OpenAt blocks j := by
      by_cases same : j = i
      · exact same ▸ plain.open
      · exact writes.openAt (apart same) (others j member)
    have left (j : InstId) (listed : j ∈ (f.materializeInst i).code) :
        j ∈ is ∨ (f.materializeInst i).PlainAt blocks j := by
      by_cases same : j = i
      · exact .inr (same ▸ plain)
      · rcases writes.code j listed with before | new
        · rcases code j before with inside | plain
          · exact .inl ((List.mem_cons.mp inside).resolve_left same)
          · exact .inr (writes.plainAt (apart same) plain)
        · exact .inr (writes.plainAt_of_le (apart same) new)
    obtain ⟨rest, all⟩ := ih (writes.complete complete) still left
    exact ⟨(writes.mono (Set.subset_univ _)).trans rest, all⟩

/-- The blocks without instructions that go on to have none: code is written at the start of the entry block. -/
def bareBlocks (f : Func) : Set BlockId :=
  {b | f.listing.last? b = none ∧ f.listing.entry? ≠ some b}

/-- The entry block has instructions if an expression comes into a phi from it. -/
def EntryWritten (f : Func) : Prop :=
  ∀ i ∈ f.code, ∀ incoming ty, f.graph.inst? i = some (.phi incoming ty) → ∀ e ∈ incoming, f.isExpr e.1 = true →
    f.listing.entry? = some e.2 → f.listing.insts e.2 ≠ []

/-- No expression is left that could be written out. -/
def Plain (f : Func) : Prop :=
  ∀ i ∈ f.code, f.PlainAt f.bareBlocks i

theorem materialize_plain (complete : f.graph.Complete) (entry : f.EntryWritten) :
    Writes Set.univ f f.materialize ∧ f.materialize.Plain := by
  have opens (i : InstId) (listed : i ∈ f.code) : f.OpenAt f.bareBlocks i := by
    intro inst found u member expr b from_ bare
    refine ⟨bare, fun first => ?_⟩
    obtain ⟨incoming, ty, rfl, inside⟩ := Inst.mem_feeds_some (from_ ▸ member : (u.1, some b) ∈ inst.feeds)
    exact entry i listed incoming ty found (u.1, b) inside expr first (List.getLast?_eq_none_iff.mp bare)
  obtain ⟨writes, plain⟩ := materializeInsts_writes complete opens fun i listed => .inl listed
  have same : f.materialize.bareBlocks = f.bareBlocks := by
    simp only [bareBlocks, materialize, writes.last, writes.entry]
  refine ⟨writes, fun i listed => ?_⟩
  rw [same]
  exact plain i listed

theorem code_of_not_hasBody (bodyless : f.hasBody = false) : f.code = [] := by
  have none_ : f.listing.blocks = [] := by simpa [hasBody, Listing.entry?, Listing.blockIds] using bodyless
  rw [code, Listing.allInsts, none_, List.flatMap_nil]

/-! ### Plain code -/

/-- Functions that differ in their lists of users only. -/
def SameButUsers (f g : Func) : Prop :=
  g = { f with graph := { f.graph with userLists := g.graph.userLists } }

theorem SameButUsers.refl (f : Func) : f.SameButUsers f := rfl

theorem SameButUsers.trans (first : f.SameButUsers g) (second : g.SameButUsers h) : f.SameButUsers h := by
  rw [SameButUsers, second, first]

theorem SameButUsers.plain (same : f.SameButUsers g) (plain : f.Plain) : g.Plain := by
  rw [same]
  exact plain

theorem materializeValue_of_not_isExpr (plain : f.isExpr v = false) (depth : Nat) (anchor : InstId) :
    materializeValue depth f v anchor = (f, v) := by
  cases depth with
  | zero => rfl
  | succ depth =>
    unfold materializeValue
    split
    next found => cases plain.symm.trans (isExpr_iff.mpr ⟨_, _, found⟩)
    next found => cases plain.symm.trans (isExpr_iff.mpr ⟨_, _, found⟩)
    next => rfl

theorem materializeOperands_of_plain (depth : Nat) (uses : List (ValueId × Option InstId))
    (plain : ∀ u ∈ uses, f.isExpr u.1 = true → u.2 = none) :
    materializeOperands depth f uses = (f, uses.map Prod.fst) := by
  induction uses with
  | nil => rfl
  | cons u rest ih =>
    obtain ⟨v, anchor⟩ := u
    obtain ⟨here, others⟩ := List.forall_mem_cons.mp plain
    cases anchor with
    | none => simp only [materializeOperands, ih others, List.map_cons]
    | some anchor =>
      have noExpr : f.isExpr v = false := Bool.eq_false_iff.mpr fun expr =>
        absurd (here expr) (Option.some_ne_none anchor)
      simp only [materializeOperands, materializeValue_of_not_isExpr noExpr, ih others, List.map_cons]

theorem sameButUsers_setInst (found : f.graph.inst? i = some inst) :
    f.SameButUsers (f.updateGraph (·.setInst i inst)) := by
  have insts : (f.graph.setInst i inst).insts = f.graph.insts := by
    refine Array.ext_getElem? fun n => ?_
    have whole := f.graph.inst?_setInst i inst ⟨n⟩
    split at whole
    next here =>
      subst here
      rw [found] at whole
      exact whole.trans found.symm
    next => exact whole
  obtain ⟨same, -⟩ := Graph.setInst_eq f.graph i inst
  rw [insts] at same
  exact congrArg (fun graph => { f with graph }) same

theorem materializeInst_of_plain (plain : f.PlainAt f.bareBlocks i) : f.SameButUsers (f.materializeInst i) := by
  unfold materializeInst
  split
  next => exact .refl f
  next inst found =>
    split
    next =>
      have unanchored : ∀ u ∈ f.anchors i inst, f.isExpr u.1 = true → u.2 = none := by
        rw [anchors_eq]
        intro u member expr
        obtain ⟨w, feed, rfl⟩ := List.mem_map.mp member
        obtain ⟨b, bare, from_⟩ := plain inst found w feed expr
        rw [from_]
        exact bare.1
      have operands : (f.anchors i inst).map Prod.fst = inst.operands := by
        rw [anchors_eq, List.map_map, ← inst.map_fst_feeds]
        rfl
      rw [materializeOperands_of_plain _ _ unanchored, operands]
      change f.SameButUsers (f.updateGraph (·.setInst i (inst.withOperands inst.operands)))
      rw [Inst.withOperands_operands]
      exact sameButUsers_setInst found
    next => exact .refl f

theorem Plain.materialize (plain : f.Plain) : f.SameButUsers f.materialize := by
  have whole (is : List InstId) (g : Func) (same : f.SameButUsers g) (inside : ∀ i ∈ is, i ∈ f.code) :
      f.SameButUsers (is.foldl materializeInst g) := by
    induction is generalizing g with
    | nil => exact same
    | cons i is ih =>
      obtain ⟨here, rest⟩ := List.forall_mem_cons.mp inside
      have listed : i ∈ g.code := by
        rw [same]
        exact here
      exact ih _ (same.trans (materializeInst_of_plain (same.plain plain i listed))) rest
  exact whole f.code f (.refl f) fun i listed => listed

end Func

namespace Module

variable {m : Module} {id : FuncId} {f : Func}

theorem func?_materialize (m : Module) (id : FuncId) : m.materialize.func? id = (m.func? id).map Func.materialize := by
  rw [materialize, func?_foldl_updateFunc _ m.nodup_definedFuncs]
  split
  next => rfl
  next undefined =>
    cases found : m.func? id with
    | none => rfl
    | some f =>
      -- A function that is only declared has no code.
      have bodyless : f.hasBody = false :=
        Bool.eq_false_iff.mpr fun body => undefined (mem_definedFuncs.mpr ⟨f, found, body⟩)
      have same : f.materialize = f := by rw [Func.materialize, Func.code_of_not_hasBody bodyless, List.foldl_nil]
      exact (congrArg some same).symm

theorem globals_materialize (m : Module) : m.materialize.globals = m.globals := by
  have whole (ids : List FuncId) (n : Module) :
      (ids.foldl (fun n id => n.updateFunc id Func.materialize) n).globals = n.globals := by
    induction ids generalizing n with
    | nil => rfl
    | cons id ids ih => exact ih (n.updateFunc id Func.materialize)
  exact whole m.definedFuncs m

/-- The graphs of all functions are complete. -/
def Complete (m : Module) : Prop :=
  ∀ id f, m.func? id = some f → f.graph.Complete

theorem Tracked.complete (tracked : m.Tracked) : m.Complete :=
  fun id f found => (tracked id f found).tracks.complete

theorem materialize_plain (complete : m.Complete) (entry : ∀ id f, m.func? id = some f → f.EntryWritten) :
    m.materialize.Complete ∧ ∀ id f, m.materialize.func? id = some f → f.Plain := by
  have each (id : FuncId) (f : Func) (found : m.materialize.func? id = some f) : f.graph.Complete ∧ f.Plain := by
    rw [func?_materialize] at found
    obtain ⟨old, before, rfl⟩ := Option.map_eq_some_iff.mp found
    have known := complete id old before
    exact (Func.materialize_plain known (entry id old before)).imp_left (·.complete known)
  exact ⟨fun id f found => (each id f found).1, fun id f found => (each id f found).2⟩

end Module

end VarRecovery
