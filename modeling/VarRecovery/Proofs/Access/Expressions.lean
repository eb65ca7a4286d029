import VarRecovery.Proofs.Access.Plain
import VarRecovery.Proofs.Code.Replacement

/-!
What expressions are written out as. Each one becomes the result of new instructions that spell it, operands before what
uses them, in front of the instruction that uses it or, where it comes into a phi, at the end of the block that it comes
from. All other code is listed as it was.
-/

set_option autoImplicit false

namespace VarRecovery

namespace Graph

variable {g : Graph} {i : InstId}

@[simp] theorem value?_setInst (g : Graph) (i : InstId) (inst : Inst) (v : ValueId) :
    (g.setInst i inst).value? v = g.value? v := by
  rw [value?, congrArg Graph.values (setInst_eq g i inst).1, value?]

@[simp] theorem result?_setInst (g : Graph) (i : InstId) (inst : Inst) (j : InstId) :
    (g.setInst i inst).result? j = g.result? j := by
  rw [result?, congrArg Graph.results (setInst_eq g i inst).1, result?]

theorem Valid.setInst (valid : g.Valid) (made : i.index < g.insts.size) (inst : Inst) : (g.setInst i inst).Valid where
  size_userLists := by
    rw [(setInst_eq g i inst).2.1, valid.size_userLists, congrArg Graph.values (setInst_eq g i inst).1]
  size_results := by
    rw [(setInst_eq g i inst).2.2, ← valid.size_results, congrArg Graph.results (setInst_eq g i inst).1]
  ascending v := by
    rw [Graph.setInst, track_eq_addUsers]
    apply ascending_addUsers
    exact ascending_untrack i valid.ascending
  result_iff j v := by
    rw [result?_setInst, valid.result_iff, definition?_eq_some, definition?_eq_some, value?_setInst]
  uses v j user := by
    rw [operands_setInst made]
    rcases (mem_users_setInst made inst v j).mp user with ⟨before, other⟩ | ⟨here, operand, -⟩
    · have used := valid.uses v j before
      have apart : j ≠ i := by
        rintro rfl
        exact other ⟨rfl, used⟩
      rwa [if_neg apart]
    · rwa [if_pos here]

end Graph

namespace Func

variable {f g h : Func} {i j anchor : InstId} {inst : Inst} {v w : ValueId} {edited done : Set InstId}
  {news others : InstId → List InstId} {is : List InstId}

/-! ### Code in front of code -/

/-- New code is listed in front of each instruction. Of what there was, only some instructions have been edited. -/
structure Inserts (edited : Set InstId) (news : InstId → List InstId) (f g : Func) : Prop where
  listing : g.listing = f.listing.updateAll fun i => news i ++ [i]
  valid : g.graph.Valid
  size : f.graph.insts.size ≤ g.graph.insts.size
  fresh : ∀ a, ∀ i ∈ news a, f.graph.insts.size ≤ i.index
  value : ∀ v val, f.graph.value? v = some val → g.graph.value? v = some val
  inst : ∀ i inst, i ∉ edited → f.graph.inst? i = some inst → g.graph.inst? i = some inst
  result : ∀ i, i.index < f.graph.insts.size → g.graph.result? i = f.graph.result? i

theorem Inserts.refl (valid : f.graph.Valid) (edited : Set InstId) : Inserts edited (fun _ => []) f f where
  listing := by simp [Listing.updateAll]
  valid := valid
  size := Nat.le_refl _
  fresh := by simp
  value _ _ found := found
  inst _ _ _ found := found
  result _ _ := rfl

theorem Inserts.mono {more : Set InstId} (inserts : Inserts edited news f g) (le : edited ⊆ more) :
    Inserts more news f g :=
  { inserts with inst := fun i inst kept => inserts.inst i inst fun member => kept (le member) }

/-- New code stands where it was put, if what comes later goes in front of old code only. -/
theorem Inserts.trans (first : Inserts edited news f g) (second : Inserts edited others g h)
    (old : ∀ a, others a ≠ [] → a.index < f.graph.insts.size) :
    Inserts edited (fun a => news a ++ others a) f h where
  listing := by
    rw [second.listing, first.listing, Listing.updateAll_updateAll]
    congr 1
    funext i
    -- What was written first is no place for what is written later.
    have still : (news i).flatMap (fun j => others j ++ [j]) = news i := by
      have none_ : ∀ j ∈ news i, others j ++ [j] = [j] := by
        intro j new
        have nothing : others j = [] := by
          by_contra some_
          exact Nat.lt_irrefl _ (Nat.lt_of_lt_of_le (old j some_) (first.fresh i j new))
        rw [nothing, List.nil_append]
      rw [List.flatMap_congr none_, List.flatMap_singleton']
    rw [List.flatMap_append, still, List.flatMap_singleton, List.append_assoc]
  valid := second.valid
  size := Nat.le_trans first.size second.size
  fresh a i member := by
    rcases List.mem_append.mp member with before | later
    · exact first.fresh a i before
    · exact Nat.le_trans first.size (second.fresh a i later)
  value v val found := second.value v val (first.value v val found)
  inst i inst kept found := second.inst i inst kept (first.inst i inst kept found)
  result i inside := (second.result i (Nat.lt_of_lt_of_le inside first.size)).trans (first.result i inside)

theorem Puts.inserts (puts : Puts anchor is f g) : Inserts ∅ (fun i => if i = anchor then is else []) f g where
  listing := by
    rw [puts.listing, Listing.put]
    congr 1
    funext i
    split <;> rfl
  valid := puts.valid
  size := puts.size
  fresh a i member := by
    split at member
    next => exact puts.fresh i member
    next => cases member
  value := puts.value
  inst i inst _ := puts.inst i inst
  result := puts.result

theorem inserts_setInst (valid : f.graph.Valid) (made : i.index < f.graph.insts.size) (inst : Inst) :
    Inserts {i} (fun _ => []) f (f.updateGraph (·.setInst i inst)) where
  listing := by simp [updateGraph, Listing.updateAll]
  valid := valid.setInst made inst
  size := Nat.le_of_eq (Graph.setInst_eq f.graph i inst).2.2.symm
  fresh := by simp
  value v val found := (Graph.value?_setInst ..).trans found
  inst j other kept found := (Graph.inst?_setInst ..).trans ((if_neg kept).trans found)
  result j _ := Graph.result?_setInst ..

/-! ### Spelling -/

/-- Instructions of one function compute an expression of another, operands first, and end in a value. What is no
expression is its own value. -/
inductive Spells (f g : Func) : ValueId → List InstId → ValueId → Prop
  | leaf {v : ValueId} (plain : f.isExpr v = false) : Spells f g v [] v
  | cast {v arg w r : ValueId} {op : CastOp} {ty : Ty} {is : List InstId} {i : InstId}
      (found : f.graph.value? v = some (.expr (.cast op arg) ty)) (operand : Spells f g arg is w)
      (defines : g.graph.Defines r i (.cast op w ty) ty) : Spells f g v (is ++ [i]) r
  | binary {v lhs rhs w u r : ValueId} {op : BinaryOp} {ty : Ty} {is js : List InstId} {i : InstId}
      (found : f.graph.value? v = some (.expr (.binary op lhs rhs) ty)) (left : Spells f g lhs is w)
      (right : Spells f g rhs js u) (defines : g.graph.Defines r i (.binary op w u) ty) :
      Spells f g v (is ++ js ++ [i]) r

theorem Spells.of_plain (spells : f.Spells g v is w) (plain : f.isExpr v = false) : w = v := by
  cases spells with
  | leaf => rfl
  | cast found => cases plain.symm.trans (isExpr_iff.mpr ⟨_, _, found⟩)
  | binary found => cases plain.symm.trans (isExpr_iff.mpr ⟨_, _, found⟩)

theorem Inserts.defines {r : ValueId} {ty : Ty} (inserts : Inserts edited news g h) (kept : i ∉ edited)
    (defines : g.graph.Defines r i inst ty) : h.graph.Defines r i inst ty :=
  ⟨inserts.value _ _ defines.value, inserts.inst _ _ kept defines.inst⟩

theorem Spells.later (spells : f.Spells g v is w) (inserts : Inserts edited news g h)
    (kept : ∀ i ∈ is, i ∉ edited) : f.Spells h v is w := by
  induction spells with
  | leaf plain => exact .leaf plain
  | cast found operand defines ih =>
    simp only [List.mem_append, List.mem_singleton] at kept
    apply Spells.cast found (ih fun i member => kept i (.inl member))
    exact inserts.defines (kept _ (.inr rfl)) defines
  | binary found left right defines ihLeft ihRight =>
    simp only [List.mem_append, List.mem_singleton] at kept
    apply Spells.binary found (ihLeft fun i member => kept i (.inl (.inl member)))
      (ihRight fun i member => kept i (.inl (.inr member)))
    exact inserts.defines (kept _ (.inr rfl)) defines

-- The induction is on the depth; expressions are read off the first function, which all later ones keep.
theorem materializeValue_spells (complete : f.graph.Complete) (depth : Nat)
    (keeps : ∀ v val, f.graph.value? v = some val → g.graph.value? v = some val) (valid : g.graph.Valid)
    (old : anchor.index < g.graph.insts.size) (there : f.graph.Has v) (bounded : v.index < depth) :
    ∃ is, Puts anchor is g (materializeValue depth g v anchor).1 ∧
      f.Spells (materializeValue depth g v anchor).1 v is (materializeValue depth g v anchor).2 := by
  -- The depth bounds the index of the value: operands of an expression stand below it,
  -- so both recursive calls have depth left.
  induction depth generalizing g v with
  | zero => cases bounded
  | succ depth ih =>
    obtain ⟨val, known⟩ := Graph.exists_value there
    have now := keeps v val known
    have below {w : ValueId} (smaller : w.index < v.index) : f.graph.Has w ∧ w.index < depth :=
      ⟨Nat.lt_trans smaller there, by omega⟩
    unfold materializeValue
    split
    next op arg ty found =>
      cases now.symm.trans found
      obtain ⟨inside, smaller⟩ := below (complete.grounded v _ known arg (List.mem_singleton_self arg))
      obtain ⟨is, puts, spells⟩ := ih keeps valid old inside smaller
      generalize materializeValue depth g arg anchor = written at puts spells
      obtain ⟨g₁, arg₁⟩ := written
      obtain ⟨last, defines⟩ := puts_insert puts.valid anchor (.cast op arg₁ ty) ty
      refine ⟨is ++ [g₁.graph.nextInst], puts.trans old last, ?_⟩
      dsimp only
      rw [value_insert]
      exact .cast known (spells.later last.inserts (by simp)) defines
    next op lhs rhs ty found =>
      cases now.symm.trans found
      have smaller := complete.grounded v _ known
      obtain ⟨inside₁, smaller₁⟩ := below (smaller lhs (by simp [Value.operands, ConstExpr.operands]))
      obtain ⟨inside₂, smaller₂⟩ := below (smaller rhs (by simp [Value.operands, ConstExpr.operands]))
      obtain ⟨is, first, left⟩ := ih keeps valid old inside₁ smaller₁
      generalize materializeValue depth g lhs anchor = written at first left
      obtain ⟨g₁, lhs₁⟩ := written
      have keeps₁ (v : ValueId) (val : Value) (found : f.graph.value? v = some val) : g₁.graph.value? v = some val :=
        first.value v val (keeps v val found)
      have old₁ := Nat.lt_of_lt_of_le old first.size
      obtain ⟨js, second, right⟩ := ih keeps₁ first.valid old₁ inside₂ smaller₂
      dsimp only
      generalize materializeValue depth g₁ rhs anchor = written at second right
      obtain ⟨g₂, rhs₁⟩ := written
      obtain ⟨last, defines⟩ := puts_insert second.valid anchor (.binary op lhs₁ rhs₁) ty
      refine ⟨is ++ js ++ [g₂.graph.nextInst], (first.trans old second).trans old last, ?_⟩
      rw [value_insert]
      have left₂ := (left.later second.inserts (by simp)).later last.inserts (by simp)
      exact .binary known left₂ (right.later last.inserts (by simp)) defines
    next noCast noBinary =>
      refine ⟨[], .refl valid anchor, .leaf (Bool.eq_false_iff.mpr fun expr => ?_)⟩
      obtain ⟨e, ty, found⟩ := isExpr_iff.mp expr
      cases e with
      | cast op arg => exact noCast op arg ty (keeps v _ found)
      | binary op lhs rhs => exact noBinary op lhs rhs ty (keeps v _ found)

/-- An operand is spelled by a stretch of what was written in front of an instruction. -/
def SpelledAt (f g : Func) (news : InstId → List InstId) (anchor : Option InstId) (v w : ValueId) : Prop :=
  ∃ a is, anchor = some a ∧ is <:+: news a ∧ f.Spells g v is w

theorem SpelledAt.mono {anchor : Option InstId} (spelled : f.SpelledAt g news anchor v w)
    (stretch : ∀ a, news a <:+: others a) : f.SpelledAt g others anchor v w := by
  obtain ⟨a, is, at_, inside, spells⟩ := spelled
  exact ⟨a, is, at_, inside.trans (stretch a), spells⟩

theorem SpelledAt.later {anchor : Option InstId} (spelled : f.SpelledAt g news anchor v w)
    (inserts : Inserts edited others g h) (kept : ∀ a, ∀ i ∈ news a, i ∉ edited) : f.SpelledAt h news anchor v w := by
  obtain ⟨a, is, at_, inside, spells⟩ := spelled
  exact ⟨a, is, at_, inside, spells.later inserts fun i member => kept a i (inside.subset member)⟩

theorem spelledAt_of_plain {anchor : Option InstId} {a : InstId} (at_ : anchor = some a) (plain : f.isExpr v = false) :
    f.SpelledAt g news anchor v v :=
  ⟨a, [], at_, List.nil_infix, .leaf plain⟩

theorem materializeOperands_spells (complete : f.graph.Complete) (depth : Nat)
    (keeps : ∀ v val, f.graph.value? v = some val → g.graph.value? v = some val) (valid : g.graph.Valid)
    (uses : List (ValueId × Option InstId)) (there : ∀ u ∈ uses, f.graph.Has u.1 ∧ u.1.index < depth)
    (anchored : ∀ u ∈ uses, ∃ a, u.2 = some a ∧ a.index < g.graph.insts.size) :
    ∃ news, Inserts ∅ news g (materializeOperands depth g uses).1 ∧
      (∀ a, news a ≠ [] → some a ∈ uses.map Prod.snd) ∧
      List.Forall₂ (fun u w => f.SpelledAt (materializeOperands depth g uses).1 news u.2 u.1 w) uses
        (materializeOperands depth g uses).2 := by
  induction uses generalizing g with
  | nil => exact ⟨fun _ => [], .refl valid ∅, by simp, .nil⟩
  | cons u rest ih =>
    obtain ⟨⟨here, bounded⟩, others⟩ := List.forall_mem_cons.mp there
    obtain ⟨⟨a, at_, old⟩, behind⟩ := List.forall_mem_cons.mp anchored
    obtain ⟨v, anchor⟩ := u
    obtain rfl : anchor = some a := at_
    unfold materializeOperands
    dsimp only
    obtain ⟨is, puts, spells⟩ := materializeValue_spells complete depth keeps valid old here bounded
    generalize materializeValue depth g v a = written at puts spells
    obtain ⟨g₁, w⟩ := written
    have keeps₁ (v : ValueId) (val : Value) (found : f.graph.value? v = some val) : g₁.graph.value? v = some val :=
      puts.value v val (keeps v val found)
    have behind₁ : ∀ u ∈ rest, ∃ a, u.2 = some a ∧ a.index < g₁.graph.insts.size := by
      intro u member
      obtain ⟨b, from_, lt⟩ := behind u member
      exact ⟨b, from_, Nat.lt_of_lt_of_le lt puts.size⟩
    obtain ⟨news, inserts, only, spelled⟩ := ih keeps₁ puts.valid others behind₁
    dsimp only
    generalize materializeOperands depth g₁ rest = written at inserts spelled
    obtain ⟨g₂, ws⟩ := written
    -- The later operands anchor at old instructions only, never at one the first operand wrote,
    -- so the two insertions add up anchor by anchor.
    have anchors : ∀ b, news b ≠ [] → b.index < g.graph.insts.size := by
      intro b some_
      obtain ⟨u, member, same⟩ := List.mem_map.mp (only b some_)
      obtain ⟨c, from_, lt⟩ := behind u member
      cases same.symm.trans from_
      exact lt
    refine ⟨_, puts.inserts.trans inserts anchors, fun b some_ => ?_, .cons ?_ ?_⟩
    · by_cases same : b = a
      · simp [same]
      · exact List.mem_cons_of_mem _ (only b (by simpa [same] using some_))
    · refine ⟨a, is, rfl, ?_, spells.later inserts (by simp)⟩
      simpa using (List.prefix_append is (news a)).isInfix
    · apply spelled.imp
      intro u w part
      apply part.mono
      intro b
      exact (List.suffix_append _ (news b)).isInfix

/-! ### Instructions one after another -/

/-- Instructions are listed once, and the graph has all that is listed or used. -/
structure LaidOut (f : Func) : Prop where
  graph : f.graph.Valid
  complete : f.graph.Complete
  code_nodup : f.code.Nodup
  code_lt : ∀ i ∈ f.code, i.index < f.graph.insts.size

/-- Each block that a value comes into a phi from has a last instruction. -/
def ComesFromCode (f : Func) : Prop :=
  ∀ i ∈ f.code, ∀ inst ∈ f.graph.inst? i, ∀ u ∈ inst.feeds, ∀ b ∈ u.2, (f.listing.last? b).isSome

instance (f : Func) : Decidable f.ComesFromCode :=
  inferInstanceAs (Decidable (∀ i ∈ f.code, ∀ inst ∈ f.graph.inst? i, ∀ u ∈ inst.feeds, ∀ b ∈ u.2,
    (f.listing.last? b).isSome))

/-- The operands of some instructions have been written out. -/
structure Expanded (done : Set InstId) (news : InstId → List InstId) (f g : Func) : Prop
    extends Inserts done news f g where
  written : ∀ i ∈ done, ∀ inst, f.graph.inst? i = some inst → ∃ vs, g.graph.inst? i = some (inst.withOperands vs) ∧
    List.Forall₂ (fun u w => f.SpelledAt g news (f.anchor? i u.2) u.1 w) inst.feeds vs

theorem Inserts.last? (inserts : Inserts edited news f g) (b : BlockId) : g.listing.last? b = f.listing.last? b := by
  rw [inserts.listing]
  apply Listing.last?_updateAll
  simp

theorem Inserts.anchor? (inserts : Inserts edited news f g) (i : InstId) (b : Option BlockId) :
    g.anchor? i b = f.anchor? i b := by
  cases b with
  | none => rfl
  | some b => exact inserts.last? b

theorem Inserts.has (inserts : Inserts edited news f g) (there : f.graph.Has v) : g.graph.Has v := by
  obtain ⟨val, found⟩ := Graph.exists_value there
  exact Graph.value?_lt (inserts.value v val found)

theorem Inserts.isExpr (inserts : Inserts edited news f g) (there : f.graph.Has v) : g.isExpr v = f.isExpr v := by
  obtain ⟨val, found⟩ := Graph.exists_value there
  rw [Func.isExpr, inserts.value v val found, Func.isExpr, found]

/-- Code is written in front of listed instructions. -/
theorem ComesFromCode.exists_anchor (fed : f.ComesFromCode) (listed : i ∈ f.code)
    (found : f.graph.inst? i = some inst) : ∀ u ∈ inst.feeds, ∃ a ∈ f.code, f.anchor? i u.2 = some a := by
  intro u member
  cases from_ : u.2 with
  | none => exact ⟨i, listed, rfl⟩
  | some b =>
    obtain ⟨a, last⟩ := Option.isSome_iff_exists.mp (fed i listed inst found u member b from_)
    exact ⟨a, mem_code_of_insts (List.mem_of_getLast? last), last⟩

theorem has_of_mem_feeds (complete : f.graph.Complete) (found : f.graph.inst? i = some inst) :
    ∀ u ∈ inst.feeds, f.graph.Has u.1 := by
  intro u member
  apply complete.operands i
  exact Graph.mem_operands.mpr ⟨inst, found, inst.map_fst_feeds ▸ List.mem_map_of_mem member⟩

/-- What is written out for another instruction leaves what was written out before. -/
theorem Expanded.trans (expanded : Expanded done news f g) (inserts : Inserts {i} others g h)
    (old : ∀ a, others a ≠ [] → a.index < f.graph.insts.size) (inside : i.index < f.graph.insts.size) (new : i ∉ done)
    (here : ∀ inst, f.graph.inst? i = some inst → ∃ vs, h.graph.inst? i = some (inst.withOperands vs) ∧
      List.Forall₂ (fun u w => f.SpelledAt h others (f.anchor? i u.2) u.1 w) inst.feeds vs) :
    Expanded (done ∪ {i}) (fun a => news a ++ others a) f h where
  toInserts := by
    exact (expanded.mono Set.subset_union_left).trans (inserts.mono Set.subset_union_right) old
  written j member inst found := by
    have fresh : ∀ a, ∀ k ∈ news a, k ∉ ({i} : Set InstId) := by
      rintro a k added rfl
      exact Nat.lt_irrefl _ (Nat.lt_of_lt_of_le inside (expanded.fresh a k added))
    rcases member with before | rfl
    case inr =>
      obtain ⟨vs, now, spelled⟩ := here inst found
      refine ⟨vs, now, spelled.imp fun u w part => part.mono ?_⟩
      intro a
      exact (List.suffix_append (news a) (others a)).isInfix
    case inl =>
      obtain ⟨vs, now, spelled⟩ := expanded.written j before inst found
      have other : j ∉ ({i} : Set InstId) := by
        rintro rfl
        exact new before
      refine ⟨vs, inserts.inst j _ other now, spelled.imp fun u w part => (part.later inserts fresh).mono ?_⟩
      intro a
      exact (List.prefix_append (news a) (others a)).isInfix

theorem Expanded.materializeInst (expanded : Expanded done news f g) (laid : f.LaidOut) (fed : f.ComesFromCode)
    (listed : i ∈ f.code) (new : i ∉ done) : ∃ more, Expanded (done ∪ {i}) more f (g.materializeInst i) := by
  have inside := laid.code_lt i listed
  obtain ⟨inst, found⟩ := Graph.exists_inst inside
  have now := expanded.inst i inst new found
  have has := has_of_mem_feeds laid.complete found
  have anchored := fed.exists_anchor listed found
  unfold Func.materializeInst
  rw [now]
  dsimp only
  split
  next =>
    have there : ∀ u ∈ g.anchors i inst, f.graph.Has u.1 ∧ u.1.index < g.graph.values.size := by
      rw [anchors_eq, List.forall_mem_map]
      intro u member
      exact ⟨has u member, expanded.has (has u member)⟩
    have listed_ : ∀ u ∈ g.anchors i inst, ∃ a ∈ f.code, u.2 = some a := by
      rw [anchors_eq, List.forall_mem_map]
      intro u member
      rw [expanded.anchor?]
      exact anchored u member
    obtain ⟨others, inserts, only, spelled⟩ := materializeOperands_spells laid.complete g.graph.values.size expanded.value
      expanded.valid (g.anchors i inst) there fun u member => by
        obtain ⟨a, at_, from_⟩ := listed_ u member
        exact ⟨a, from_, Nat.lt_of_lt_of_le (laid.code_lt a at_) expanded.size⟩
    generalize materializeOperands g.graph.values.size g (g.anchors i inst) = written at inserts spelled
    obtain ⟨g₁, vs⟩ := written
    rw [anchors_eq, List.forall₂_map_left_iff] at spelled
    simp only [expanded.anchor?] at spelled
    have made : i.index < g₁.graph.insts.size :=
      Nat.lt_of_lt_of_le inside (Nat.le_trans expanded.size inserts.size)
    -- The copies come first and leave the user alone; only then does it take its new operands.
    have edit := inserts_setInst inserts.valid made (inst.withOperands vs)
    have whole := (inserts.mono (Set.empty_subset {i})).trans edit (by simp)
    simp only [List.append_nil] at whole
    refine ⟨_, expanded.trans whole ?_ inside new fun other same => ?_⟩
    · intro a some_
      obtain ⟨u, member, from_⟩ := List.mem_map.mp (only a some_)
      obtain ⟨b, at_, same⟩ := listed_ u member
      cases from_.symm.trans same
      exact laid.code_lt a at_
    · cases found.symm.trans same
      refine ⟨vs, ?_, spelled.imp fun u w part => part.later edit ?_⟩
      · have still := inserts.inst i inst (Set.notMem_empty i) now
        exact (Graph.inst?_setInst ..).trans (by rw [if_pos rfl, still]; rfl)
      · rintro a k added rfl
        exact Nat.lt_irrefl _ (Nat.lt_of_lt_of_le (Nat.lt_of_lt_of_le inside expanded.size) (inserts.fresh a k added))
  next plain =>
    refine ⟨_, expanded.trans (.refl expanded.valid {i}) (by simp) inside new fun other same => ?_⟩
    cases found.symm.trans same
    refine ⟨inst.operands, by rw [Inst.withOperands_operands, now], ?_⟩
    rw [← Inst.map_fst_feeds, List.forall₂_map_right_iff, List.forall₂_same]
    intro u member
    obtain ⟨a, -, at_⟩ := anchored u member
    apply spelledAt_of_plain at_
    rw [← expanded.isExpr (has u member)]
    by_contra expr
    have operand : u.1 ∈ inst.operands := inst.map_fst_feeds ▸ List.mem_map_of_mem member
    exact plain (List.any_eq_true.mpr ⟨u.1, operand, by simpa using expr⟩)

theorem materializeInsts_expanded (laid : f.LaidOut) (fed : f.ComesFromCode) (nodup : is.Nodup)
    (listed : ∀ i ∈ is, i ∈ f.code) (new : ∀ i ∈ is, i ∉ done) (expanded : Expanded done news f g) :
    ∃ more, Expanded (done ∪ {i | i ∈ is}) more f (is.foldl Func.materializeInst g) := by
  induction is generalizing done news g with
  | nil =>
    refine ⟨news, ?_⟩
    simpa using expanded
  | cons i is ih =>
    obtain ⟨once, nodup⟩ := List.nodup_cons.mp nodup
    obtain ⟨here, behind⟩ := List.forall_mem_cons.mp listed
    obtain ⟨newHere, newBehind⟩ := List.forall_mem_cons.mp new
    obtain ⟨more, next⟩ := expanded.materializeInst laid fed here newHere
    have still : ∀ j ∈ is, j ∉ done ∪ {i} := by
      rintro j member (before | rfl)
      · exact newBehind j member before
      · exact once member
    obtain ⟨all, whole⟩ := ih nodup behind still next
    have same : done ∪ {i} ∪ {j | j ∈ is} = done ∪ {j | j ∈ i :: is} := by
      ext j
      simp [or_assoc, or_left_comm]
    exact ⟨all, same ▸ whole⟩

/-! ### What each edit keeps -/

section

variable {P : Func → Prop}
  (insert : ∀ (f : Func) (inst : Inst) (ty : Ty) (anchor : InstId), P f → P (f.insert inst ty (.before anchor)).1)

include insert

theorem materializeValue_keeps (depth : Nat) (v : ValueId) (anchor : InstId) (kept : P f) :
    P (materializeValue depth f v anchor).1 := by
  induction depth generalizing f v with
  | zero => exact kept
  | succ depth ih =>
    unfold materializeValue
    split
    next op arg ty _ => exact insert _ _ ty anchor (ih arg kept)
    next op lhs rhs ty _ => exact insert _ _ ty anchor (ih rhs (ih lhs kept))
    next => exact kept

theorem materializeOperands_keeps (depth : Nat) (uses : List (ValueId × Option InstId)) (kept : P f) :
    P (materializeOperands depth f uses).1 := by
  induction uses generalizing f with
  | nil => exact kept
  | cons u rest ih =>
    obtain ⟨v, anchor⟩ := u
    cases anchor with
    | none => exact ih kept
    | some anchor => exact ih (materializeValue_keeps insert depth v anchor kept)

/-- What writing an instruction and editing one keep is kept by all of it. -/
theorem materialize_keeps
    (edit : ∀ (f : Func) (i : InstId) (inst : Inst), P f → P (f.updateGraph (·.setInst i inst))) (kept : P f) :
    P f.materialize := by
  have step (g : Func) (i : InstId) (kept : P g) : P (g.materializeInst i) := by
    unfold Func.materializeInst
    split
    next => exact kept
    next inst _ =>
      split
      next => exact edit _ i _ (materializeOperands_keeps insert _ _ kept)
      next => exact kept
  unfold materialize
  generalize f.code = is
  induction is generalizing f with
  | nil => exact kept
  | cons i is ih => exact ih (step f i kept)

end

theorem code_nodup_materialize (laid : f.LaidOut) : f.materialize.code.Nodup := by
  have both := materialize_keeps (f := f) (P := fun f => f.code.Nodup ∧ ∀ i ∈ f.code, i.index < f.graph.insts.size)
    ?insert (fun f i inst kept => ⟨kept.1, fun j listed => ?edit⟩) ⟨laid.code_nodup, laid.code_lt⟩
  case insert =>
    rintro f inst ty anchor ⟨nodup, lt⟩
    have below : ∀ i ∈ (f.insert inst ty (.before anchor)).1.code,
        i.index < (f.insert inst ty (.before anchor)).1.graph.insts.size := by
      intro i listed
      rw [graph_insert, Graph.size_insts_emit]
      rw [code, listing_insert] at listed
      rcases Listing.mem_allInsts_insert listed with rfl | before
      · exact Nat.lt_succ_self _
      · exact Nat.lt_succ_of_lt (lt i before)
    refine ⟨?_, below⟩
    rw [code, listing_insert]
    by_cases listed : anchor ∈ f.listing.allInsts
    · have new : f.graph.nextInst ∉ f.code := fun member => Nat.lt_irrefl _ (lt _ member)
      exact (Listing.perm_insertBefore nodup listed).nodup_iff.mpr (List.nodup_cons.mpr ⟨new, nodup⟩)
    · -- Nothing is listed in front of what is not listed.
      change (f.listing.updateAll _).allInsts.Nodup
      rw [Listing.allInsts_updateAll, Listing.flatMap_of_not_mem (fun j other => if_neg other) listed]
      exact nodup
  case edit =>
    change j.index < (f.graph.setInst i inst).insts.size
    rw [(Graph.setInst_eq f.graph i inst).2.2]
    exact kept.2 j listed
  exact both.1

/-! ### All of it -/

/-- Nothing is left that could be written out. -/
theorem materialize_noExpr (complete : f.graph.Complete) (fed : f.ComesFromCode) :
    ∀ i ∈ f.materialize.code, ∀ v ∈ f.materialize.graph.operands i, f.materialize.isExpr v = false := by
  have opens : ∀ i ∈ f.code, f.OpenAt ∅ i := by
    intro i listed inst found u member _ b from_ bare
    obtain ⟨a, -, last⟩ := fed.exists_anchor listed found u member
    rw [from_] at last
    cases bare.symm.trans last
  obtain ⟨-, plain⟩ := materializeInsts_writes complete opens fun i listed => .inl listed
  intro i listed v operand
  obtain ⟨inst, found, inside⟩ := Graph.mem_operands.mp operand
  rw [← Inst.map_fst_feeds] at inside
  obtain ⟨u, member, rfl⟩ := List.mem_map.mp inside
  by_contra expr
  obtain ⟨b, nowhere, -⟩ := plain i listed inst found u member (eq_true_of_ne_false expr)
  exact nowhere

theorem materialize_eq_self (plain : ∀ i ∈ f.code, ∀ v ∈ f.graph.operands i, f.isExpr v = false) :
    f.materialize = f := by
  have still : ∀ i ∈ f.code, f.materializeInst i = f := by
    intro i listed
    unfold Func.materializeInst
    split
    next => rfl
    next inst found =>
      have none_ : inst.operands.any f.isExpr = false := by
        rw [List.any_eq_false]
        intro v operand
        simp [plain i listed v (Graph.mem_operands.mpr ⟨inst, found, operand⟩)]
      rw [none_]
      rfl
  unfold materialize
  generalize f.code = is at still
  induction is with
  | nil => rfl
  | cons i is ih =>
    obtain ⟨here, rest⟩ := List.forall_mem_cons.mp still
    rw [List.foldl_cons, here, ih rest]

/-- Code is only added, in front of each instruction, and each instruction keeps all but those of its operands that are
expressions. What comes in their place is spelled by new code: in front of the instruction, or for a value that comes
into a phi in front of the last instruction of the block that it comes from. It is all done at once. -/
theorem materialize_spells_out (laid : f.LaidOut) (fed : f.ComesFromCode) :
    (∃ news : InstId → List InstId, f.materialize.listing = f.listing.updateAll (fun i => news i ++ [i]) ∧
      (∀ a, ∀ i ∈ news a, f.graph.insts.size ≤ i.index) ∧
      ∀ i ∈ f.code, ∃ inst vs, f.graph.inst? i = some inst ∧
        f.materialize.graph.inst? i = some (inst.withOperands vs) ∧
        f.materialize.graph.result? i = f.graph.result? i ∧
        List.Forall₂ (fun u w => if f.isExpr u.1 then f.SpelledAt f.materialize news (f.anchor? i u.2) u.1 w
          else w = u.1) inst.feeds vs) ∧
      f.materialize.graph.Valid ∧ f.materialize.code.Nodup ∧
      (∀ v val, f.graph.value? v = some val → f.materialize.graph.value? v = some val) ∧
      (∀ i ∈ f.materialize.code, ∀ v ∈ f.materialize.graph.operands i, f.materialize.isExpr v = false) ∧
      f.materialize.materialize = f.materialize := by
  have start : Expanded ∅ (fun _ => []) f f := ⟨.refl laid.graph ∅, fun i member => nomatch member⟩
  obtain ⟨news, expanded⟩ := materializeInsts_expanded laid fed laid.code_nodup (fun i listed => listed)
    (fun i _ => Set.notMem_empty i) start
  rw [Set.empty_union] at expanded
  have plain := materialize_noExpr laid.complete fed
  refine ⟨⟨news, expanded.listing, expanded.fresh, fun i listed => ?_⟩, expanded.valid, code_nodup_materialize laid,
    expanded.value, plain, materialize_eq_self plain⟩
  have inside := laid.code_lt i listed
  obtain ⟨inst, found⟩ := Graph.exists_inst inside
  obtain ⟨vs, now, spelled⟩ := expanded.written i listed inst found
  refine ⟨inst, vs, found, now, expanded.result i inside, spelled.imp fun u w part => ?_⟩
  split
  next => exact part
  next noExpr =>
    obtain ⟨a, is, -, -, spells⟩ := part
    exact spells.of_plain (Bool.eq_false_iff.mpr noExpr)

/-- One address comes into a phi from two blocks, the second of which is its own, and is loaded from. -/
def addressLoop : Func :=
  let int := Ty.int .i64
  let f := (declare ⟨"poll", .exported, [], .unit, none, false, false⟩ []).addBlock.addBlock
  let (f, base) := f.addImm (.ofInt .i64 4096)
  let (f, sum) := f.addExpr (.binary .add base base) int
  let (f, address) := f.addExpr (.cast .intToPtr sum) (.ptr int)
  let (f, _) := f.insertInst (.jump ⟨1⟩) (.bottom ⟨0⟩)
  let (f, _) := f.insert (.phi [(address, ⟨0⟩), (address, ⟨1⟩)] (.ptr int)) (.ptr int) (.bottom ⟨1⟩)
  let (f, _) := f.insert (.load address int) int (.bottom ⟨1⟩)
  (f.insertInst (.jump ⟨1⟩) (.bottom ⟨1⟩)).1

theorem materialize_addressLoop : addressLoop.LaidOut ∧ addressLoop.ComesFromCode ∧
    addressLoop.materialize.listing =
      ⟨[(⟨0⟩, [⟨4⟩, ⟨5⟩, ⟨0⟩]), (⟨1⟩, [⟨1⟩, ⟨8⟩, ⟨9⟩, ⟨2⟩, ⟨6⟩, ⟨7⟩, ⟨3⟩])]⟩ ∧
    addressLoop.materialize.materialize = addressLoop.materialize := by
  have laid : addressLoop.LaidOut :=
    ⟨by decide +kernel, by decide +kernel, by decide +kernel, by decide +kernel⟩
  have fed : addressLoop.ComesFromCode := by decide +kernel
  obtain ⟨-, -, -, -, -, again⟩ := materialize_spells_out laid fed
  exact ⟨laid, fed, by decide +kernel, again⟩

end Func

end VarRecovery
