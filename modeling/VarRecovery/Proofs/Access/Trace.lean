import Mathlib.Data.Fintype.Pigeonhole
import Mathlib.Logic.Relation
import VarRecovery.Access.Trace
import VarRecovery.Proofs.Code.Valid

/-!
What the search for constants finds: exactly those that the uses it begins with can be traced back to. And what
a value is cast from: a chain of casts comes back to where it was before it is longer than the code.
-/

set_option autoImplicit false

namespace VarRecovery

namespace Graph

variable {g : Graph} {P : Use → Prop}

/-- What holds of the uses that a search begins with, and with each use of its sources, holds of all it finds. -/
theorem forall_traceFrom (next : ∀ use, P use → ∀ source ∈ g.sources use, P source) {unseen work : List Use}
    (start : ∀ use ∈ work, P use) : ∀ use ∈ g.traceFrom unseen work, P use := by
  induction unseen, work using traceFrom.induct g with
  | case1 unseen =>
    rw [traceFrom]
    exact nofun
  | case2 unseen use rest member ih =>
    obtain ⟨here, others⟩ := List.forall_mem_cons.mp start
    rw [traceFrom, if_pos member]
    refine List.forall_mem_append.mpr ⟨fun found inside => ?_, ih (List.forall_mem_append.mpr ⟨?_, others⟩)⟩
    · split at inside
      next => exact List.mem_singleton.mp inside ▸ here
      next => cases inside
    · exact fun source member => next use here source (List.mem_reverse.mp member)
  | case3 unseen use rest seen ih =>
    rw [traceFrom, if_neg seen]
    exact ih (List.forall_mem_cons.mp start).2

theorem mem_operands_of_addressOperands {inst : Inst} {v : ValueId} (member : v ∈ g.addressOperands inst) :
    v ∈ inst.operands := by
  unfold addressOperands at member
  split at member
  case h_5 => exact member
  case h_6 => cases member
  case h_2 => exact List.mem_cons.mpr (.inl (List.mem_singleton.mp member))
  all_goals
    split at member
    next => exact List.mem_cons.mpr (.inl (List.mem_singleton.mp member))
    next => cases member

/-- A use can be traced back to another one, by any number of steps. -/
abbrev Leads (g : Graph) : Use → Use → Prop :=
  Relation.ReflTransGen fun use source => source ∈ g.sources use

/-- The same, by steps to uses of a list. -/
abbrev LeadsIn (g : Graph) (inside : List Use) : Use → Use → Prop :=
  Relation.ReflTransGen fun use source => source ∈ g.sources use ∧ source ∈ inside

theorem mem_without {use other : Use} {uses : List Use} : other ∈ without use uses ↔ other ∈ uses ∧ other ≠ use := by
  simp [without]

/-- A way either does without a use, or goes on behind the last time that it comes there. -/
theorem LeadsIn.avoid {inside : List Use} {first last : Use} (way : g.LeadsIn inside first last) (use : Use) :
    (first ≠ use ∧ last ≠ use ∧ g.LeadsIn (without use inside) first last) ∨ last = use ∨
      ∃ source ∈ g.sources use, source ∈ without use inside ∧ g.LeadsIn (without use inside) source last := by
  induction way with
  | refl =>
    by_cases here : first = use
    · exact .inr (.inl here)
    · exact .inl ⟨here, here, .refl⟩
  | @tail mid last _ step ih =>
    obtain ⟨source, member⟩ := step
    by_cases here : last = use
    · exact .inr (.inl here)
    · have kept : last ∈ without use inside := mem_without.mpr ⟨member, here⟩
      rcases ih with ⟨other, -, way⟩ | rfl | ⟨s, from_, other, way⟩
      · exact .inl ⟨other, here, way.tail ⟨source, kept⟩⟩
      · exact .inr (.inr ⟨last, source, kept, .refl⟩)
      · exact .inr (.inr ⟨s, from_, other, way.tail ⟨source, kept⟩⟩)

/-- The search finds all constants on ways through unseen uses. -/
theorem mem_traceFrom {unseen work : List Use} {use last : Use} (member : use ∈ work) (fresh : use ∈ unseen)
    (way : g.LeadsIn unseen use last) (constant : g.isImm last.2 = true) : last ∈ g.traceFrom unseen work := by
  induction unseen, work using traceFrom.induct g generalizing use with
  | case1 => cases member
  | case2 unseen next rest inside ih =>
    rw [traceFrom, if_pos inside]
    apply List.mem_append.mpr
    rcases way.avoid next with ⟨other, -, way⟩ | rfl | ⟨source, from_, kept, way⟩
    · have later := (List.mem_cons.mp member).resolve_left other
      exact .inr (ih (List.mem_append_right _ later) (mem_without.mpr ⟨fresh, other⟩) way)
    · rw [if_pos constant]
      exact .inl (List.mem_singleton_self last)
    · exact .inr (ih (List.mem_append_left _ (List.mem_reverse.mpr from_)) kept way)
  | case3 unseen next rest seen ih =>
    rw [traceFrom, if_neg seen]
    have other : use ≠ next := fun same => seen (same ▸ fresh)
    exact ih ((List.mem_cons.mp member).resolve_left other) fresh way

theorem mem_sources {use source : Use} : source ∈ g.sources use ↔
    ∃ inst, g.definition? use.2 = some source.1 ∧ g.inst? source.1 = some inst ∧
      source.2 ∈ g.addressOperands inst := by
  obtain ⟨user, v⟩ := source
  unfold sources
  cases made : g.definition? use.2 with
  | none => simp
  | some i =>
    cases found : g.inst? i with
    | none =>
      simp only [found, List.not_mem_nil, Option.some.injEq, false_iff, not_exists, not_and]
      rintro inst rfl again
      cases found.symm.trans again
    | some inst =>
      simp only [found, List.mem_map, Prod.mk.injEq, Option.some.injEq]
      constructor
      · rintro ⟨w, operand, rfl, rfl⟩
        exact ⟨inst, rfl, found, operand⟩
      · rintro ⟨other, rfl, again, operand⟩
        cases found.symm.trans again
        exact ⟨v, operand, rfl, rfl⟩

theorem mem_uses {use : Use} : use ∈ g.uses ↔ use.2 ∈ g.operands use.1 := by
  obtain ⟨user, v⟩ := use
  simp only [uses, List.mem_flatMap, List.mem_range, List.mem_map, Prod.mk.injEq]
  constructor
  · rintro ⟨n, -, w, operand, rfl, rfl⟩
    exact operand
  · intro operand
    obtain ⟨inst, found, -⟩ := mem_operands.mp operand
    exact ⟨user.index, (Array.getElem?_eq_some_iff.mp found).1, v, operand, rfl, rfl⟩

theorem mem_uses_of_mem_sources {use source : Use} (step : source ∈ g.sources use) : source ∈ g.uses := by
  obtain ⟨inst, -, found, operand⟩ := mem_sources.mp step
  exact mem_uses.mpr (mem_operands.mpr ⟨inst, found, mem_operands_of_addressOperands operand⟩)

theorem isImm_of_mem_traceFrom {unseen work : List Use} : ∀ use ∈ g.traceFrom unseen work, g.isImm use.2 = true := by
  induction unseen, work using traceFrom.induct g with
  | case1 unseen =>
    rw [traceFrom]
    exact nofun
  | case2 unseen use rest member ih =>
    rw [traceFrom, if_pos member]
    refine List.forall_mem_append.mpr ⟨fun found inside => ?_, ih⟩
    split at inside
    next constant => exact List.mem_singleton.mp inside ▸ constant
    next => cases inside
  | case3 unseen use rest seen ih =>
    rw [traceFrom, if_neg seen]
    exact ih

/-- A search finds exactly the constants that its use can be traced back to. -/
theorem mem_traceConstants {user : InstId} {v : ValueId} {use : Use} :
    use ∈ g.traceConstants user v ↔ g.isImm use.2 = true ∧ g.Leads (user, v) use := by
  constructor
  · intro found
    refine ⟨isImm_of_mem_traceFrom use found, ?_⟩
    refine forall_traceFrom (P := g.Leads (user, v)) ?_ (List.forall_mem_singleton.mpr .refl) use found
    exact fun use way source step => way.tail step
  · rintro ⟨constant, way⟩
    have inside (use source : Use) (step : source ∈ g.sources use) :
        source ∈ g.sources use ∧ source ∈ (user, v) :: g.uses :=
      ⟨step, List.mem_cons_of_mem _ (mem_uses_of_mem_sources step)⟩
    have whole : g.LeadsIn ((user, v) :: g.uses) (user, v) use := Relation.ReflTransGen.mono inside _ _ way
    exact mem_traceFrom (List.mem_singleton_self _) List.mem_cons_self whole constant

/-! ### Casts -/

variable {v w : ValueId} {n k : Nat}

/-- A value is cast from another one, by any number of casts that keep the bits of an address. -/
abbrev CastFrom (g : Graph) : ValueId → ValueId → Prop :=
  Relation.ReflTransGen fun v source => g.castSource? v = some source

/-- What a value is after so many casts back. -/
def castAt? (g : Graph) : Nat → ValueId → Option ValueId
  | 0, v => some v
  | n + 1, v => (g.castAt? n v).bind g.castSource?

theorem castSource?_eq_some : g.castSource? v = some w ↔ ∃ i op ty, g.definition? v = some i ∧
    g.inst? i = some (.cast op w ty) ∧ op.keepsBits = true := by
  unfold castSource? castOf? defining?
  cases made : g.definition? v with
  | none => simp
  | some i =>
    cases found : g.inst? i with
    | none => simp [found]
    | some inst => cases inst <;> simp_all [and_comm]

theorem castAt?_succ : g.castAt? (n + 1) v = (g.castSource? v).bind (g.castAt? n) := by
  induction n with
  | zero => cases made : g.castSource? v <;> simp [castAt?, made]
  | succ n ih =>
    rw [castAt?, ih]
    cases g.castSource? v <;> rfl

theorem castFrom_iff : g.CastFrom v w ↔ ∃ n, g.castAt? n v = some w := by
  constructor
  · intro way
    induction way with
    | refl => exact ⟨0, rfl⟩
    | tail _ step ih =>
      obtain ⟨n, reached⟩ := ih
      exact ⟨n + 1, by rw [castAt?, reached]; exact step⟩
  · rintro ⟨n, reached⟩
    induction n generalizing w with
    | zero =>
      cases reached
      exact .refl
    | succ n ih =>
      obtain ⟨mid, before, step⟩ := Option.bind_eq_some_iff.mp reached
      exact (ih before).tail step

theorem castAt?_add (k : Nat) : g.castAt? (n + k) v = (g.castAt? n v).bind (g.castAt? k) := by
  induction k with
  | zero => simp [castAt?]
  | succ k ih =>
    rw [← Nat.add_assoc, castAt?, ih]
    cases g.castAt? n v <;> rfl

theorem mem_castChain : w ∈ g.castChain n v ↔ ∃ k ≤ n, g.castAt? k v = some w := by
  induction n generalizing v with
  | zero => simp [castChain, castAt?, eq_comm]
  | succ n ih =>
    have split : (∃ k ≤ n + 1, g.castAt? k v = some w) ↔
        v = w ∨ ∃ k ≤ n, ∃ source, g.castSource? v = some source ∧ g.castAt? k source = some w := by
      constructor
      · rintro ⟨_ | k, le, reached⟩
        · exact .inl (Option.some.inj reached)
        · rw [castAt?_succ] at reached
          exact .inr ⟨k, Nat.le_of_succ_le_succ le, Option.bind_eq_some_iff.mp reached⟩
      · rintro (rfl | ⟨k, le, source, step, reached⟩)
        · exact ⟨0, Nat.zero_le _, rfl⟩
        · exact ⟨k + 1, Nat.succ_le_succ le, by rw [castAt?_succ, step]; exact reached⟩
    rw [castChain, split]
    cases step : g.castSource? v with
    | none => simp [eq_comm]
    | some source => simp [ih, eq_comm]

theorem castAt?_of_le (reached : g.castAt? n v = some w) (le : k < n) :
    ∃ u source i op ty, g.castAt? k v = some u ∧ g.definition? u = some i ∧ g.inst? i = some (.cast op source ty) ∧
      g.castAt? (k + 1) v = some source := by
  obtain ⟨more, rfl⟩ := Nat.exists_eq_add_of_lt le
  rw [Nat.add_assoc, castAt?_add] at reached
  obtain ⟨u, before, rest⟩ := Option.bind_eq_some_iff.mp reached
  rw [castAt?_succ] at rest
  obtain ⟨source, step, -⟩ := Option.bind_eq_some_iff.mp rest
  obtain ⟨i, op, ty, made, found, -⟩ := castSource?_eq_some.mp step
  exact ⟨u, source, i, op, ty, before, made, found, by rw [castAt?, before]; exact step⟩

/-- What lies between two places where a chain goes on in the same way can be left out. -/
theorem castAt?_shorten {a b : Nat} (reached : g.castAt? n v = some w) (before : a < b) (inside : b < n)
    (same : g.castAt? (a + 1) v = g.castAt? (b + 1) v) : g.castAt? (n - (b - a)) v = some w := by
  have long : n = (b + 1) + (n - (b + 1)) := by omega
  have short : n - (b - a) = (a + 1) + (n - (b + 1)) := by omega
  rw [long, castAt?_add] at reached
  rw [short, castAt?_add, same]
  exact reached

/-- A chain that is longer than the code has two casts by one instruction. -/
theorem exists_castAt?_le (reached : g.castAt? n v = some w) : ∃ k ≤ g.insts.size, g.castAt? k v = some w := by
  induction n using Nat.strongRecOn with
  | ind n ih =>
    rcases Nat.lt_or_ge g.insts.size n with long | short
    · have steps (k : Fin (g.insts.size + 1)) := castAt?_of_le reached (k := k) (by omega)
      choose u source i op ty before made found after using steps
      have inside (k : Fin (g.insts.size + 1)) : (i k).index < g.insts.size :=
        (Array.getElem?_eq_some_iff.mp (found k)).1
      obtain ⟨j, l, differ, same⟩ := Fintype.exists_ne_map_eq_of_card_lt
        (fun k => (⟨(i k).index, inside k⟩ : Fin g.insts.size)) (by simp)
      have one : i j = i l := InstId.ext (Fin.mk.inj same)
      have twice : Inst.cast (op j) (source j) (ty j) = .cast (op l) (source l) (ty l) :=
        Option.some.inj ((found j).symm.trans (one ▸ found l))
      have goes : g.castAt? (j + 1) v = g.castAt? (l + 1) v := by
        rw [after j, after l, (Inst.cast.inj twice).2.1]
      rcases Nat.lt_or_gt_of_ne (Fin.val_ne_of_ne differ) with lower | higher
      · exact ih _ (by omega) (castAt?_shorten reached lower (by omega) goes)
      · exact ih _ (by omega) (castAt?_shorten reached higher (by omega) goes.symm)
    · exact ⟨n, short, reached⟩

theorem mem_castOrigins : w ∈ g.castOrigins v ↔ g.CastFrom v w := by
  rw [castOrigins, mem_castChain, castFrom_iff]
  constructor
  · rintro ⟨k, -, reached⟩
    exact ⟨k, reached⟩
  · rintro ⟨n, reached⟩
    exact exists_castAt?_le reached

theorem originPtrTy?_isSome : (g.originPtrTy? v).isSome ↔ ∃ w, g.CastFrom v w ∧ (g.ty w).isPtr = true := by
  simp [originPtrTy?, List.find?_isSome, mem_castOrigins]

end Graph

end VarRecovery
